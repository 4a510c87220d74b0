import Algorep.Proofs.Origins

namespace Algorep.Proofs
open Kit Program Program.Server

/-! Every value and every number that is proposed, promised, accepted, logged or transferred
has been submitted, or read off the clock. -/

inductive Datum
  | value (value : String)
  | number (number : Int)

/-- What a message of the consensus manager carries. -/
def dataOf : Consensus.Message → List Datum
  | .prepare id => [.number id]
  | .promise id roundId none => [.number id,.number roundId]
  | .promise id roundId (some (acceptedId,acceptedValue)) =>
    [.number id,.number roundId,.number acceptedId,.value acceptedValue]
  | .propose id roundId value | .accepted id roundId value =>
    [.number id,.number roundId,.value value]
  | .accept id roundId => [.number id,.number roundId]

/-- What a message between servers carries. -/
def carried : Server.Message n → List Datum
  | .consensus packet => dataOf packet.message
  | .state id _ state => .number id::state.map .value
  | .stateUpdated recoveryId _ => [.number recoveryId]
  | _ => []

/-- What a section will put into messages or take out of them. -/
def mentioned : Op n → List Datum
  | .handleMessage _ message | .send _ message => carried message
  | .readState _ id _ => [.number id]
  | _ => []

/-- What `startConsensus` has at hand. -/
def inCall : Consensus.Thread n → List Datum
  | .prepare value message _ | .propose value message _ | .accepted value message _ =>
    .value value::dataOf message
  | .majorityPromised value | .majorityAccepted value | .logWritten value => [.value value]
  | .idle | .logWait _ => []

/-- What an action brings in. -/
def broughtIn : Server.Action n → List Datum
  | .replicate value now => [.value value,.number now]
  | .proceed now | .handleConsensus now | .run _ _ now => [.number now]
  | _ => []

section Data
variable (D : Datum → Prop)

/-- What the consensus manager and the log have satisfies `D`. The accepted value of a
context is the empty one until a PROPOSE or a PROMISE has set it. -/
structure Proposes (node : Consensus.Node n) : Prop where
  log : ∀ v ∈ node.log, D (.value v)
  own : node.context.valueAccepted = true → D (.value node.context.acceptedValue)
  promised : node.context.maxAcceptedId ≠ -1 → D (.value node.context.acceptedValue)
  least : -1 ≤ node.context.maxAcceptedId
  roundId : D (.number node.context.roundId)
  acceptedId : D (.number node.context.acceptedId)
  call : ∀ d ∈ inCall node.thread, D d

/-- All that a server has satisfies `D`. -/
structure Holds (node : Server.Node n) : Prop where
  consensus : Proposes D node.consensus
  received : ∀ src packet, node.received = some (src,packet) → ∀ d ∈ dataOf packet.message, D d
  sections : ∀ t, ∀ x ∈ node.threads t, ∀ d ∈ mentioned x, D d

/-- All that is on its way satisfies `D`. -/
def Conveys (s : Server.Cluster n) : Prop := s.Carries (fun _ _ m => ∀ d ∈ carried m, D d)

end Data

section Consensus
variable {D : Datum → Prop} {node : Consensus.Node n} {rank : Fin n}

/-- A call that goes on without touching the context or the log. -/
theorem Proposes.going_on (h : Proposes D node) (hc : ∀ d ∈ inCall thread, D d) :
    Proposes D { node with thread := thread } :=
  ⟨h.log,h.own,h.promised,h.least,h.roundId,h.acceptedId,hc⟩

theorem Proposes.blank (h : Proposes D node) (hd : D (.number (-1)))
    (hc : ∀ d ∈ inCall thread, D d) :
    Proposes D { node with context := {}, thread := thread, resetting := b } :=
  ⟨h.log,by simp,by simp,by simp,hd,hd,hc⟩

theorem Proposes.proposeValue (h : Proposes D node) (hv : D (.value value)) :
    D (.value (Consensus.proposeValue value node.context)) := by
  unfold Consensus.proposeValue
  split
  · exact hv
  · rename_i hp
    exact h.promised hp

theorem Proposes.appended (h : Proposes D node) (hv : D (.value value)) :
    ∀ v ∈ node.log ++ [value], D (.value v) := by
  intro v hmem
  rcases List.mem_append.mp hmem with hmem | hmem
  · exact h.log v hmem
  · exact List.mem_singleton.mp hmem ▸ hv

/-- A broadcast carries what the call has at hand. -/
theorem Proposes.sends (h : Proposes D node)
    (hm : ∀ d ∈ dataOf m, d ∈ inCall node.thread)
    (hs : some ((dst,⟨m,c⟩) : Fin n × Consensus.Packet) = some (dst',packet)) :
    ∀ d ∈ dataOf packet.message, D d := by
  cases hs
  exact fun d hd => h.call d (hm d hd)

/-- What an action of the consensus manager brings in. -/
def submits : Consensus.Action → List Datum
  | .startConsensus value now => [.value value,.number now]
  | .proceed now => [.number now]
  | .resetContext => []

theorem acts_proposes (h : Proposes D node) (ha : Acts rank node a out) (hd : D (.number (-1)))
    (hv : ∀ d ∈ submits a, D d) :
    Proposes D out.state ∧
      ∀ dst packet, out.send = some (dst,packet) → ∀ d ∈ dataOf packet.message, D d := by
  have hcall := h.call
  cases ha with
  | called value now ht =>
    simp only [submits, List.mem_cons, List.not_mem_nil, or_false, forall_eq_or_imp, forall_eq] at hv
    refine ⟨⟨h.log,h.own,h.promised,h.least,hv.2,h.acceptedId,?_⟩,by simp⟩
    simpa [inCall, dataOf, generateUniqueId] using hv
  | sentPrepare value m dst rest ht | sentPropose value m dst rest ht
    | sentAccepted value m dst rest ht =>
    rw [ht] at hcall
    refine ⟨h.going_on hcall,fun dst' packet hs => ?_⟩
    exact h.sends (fun d hd => by simp [ht, inCall, hd]) hs
  | promisesSampled value m ht | acceptsSampled value m ht =>
    rw [ht] at hcall
    refine ⟨h.going_on ?_,by simp⟩
    split
    · simpa [inCall] using hcall _ List.mem_cons_self
    · simp [inCall]
  | proposed value now ht =>
    rw [ht] at hcall
    have hvalue := hcall _ List.mem_cons_self
    refine ⟨h.going_on ?_,by simp⟩
    simpa [inCall, Consensus.broadcastPropose, dataOf] using
      ⟨hvalue,hv _ List.mem_cons_self,h.roundId,h.proposeValue hvalue⟩
  | appended value ht =>
    rw [ht] at hcall
    have hvalue := hcall _ List.mem_cons_self
    exact ⟨⟨h.appended hvalue,h.own,h.promised,h.least,h.roundId,h.acceptedId,hcall⟩,by simp⟩
  | announced value now ht =>
    rw [ht] at hcall
    have hvalue := hcall _ List.mem_cons_self
    refine ⟨h.going_on ?_,by simp⟩
    simpa [inCall, Consensus.broadcastAccepted, dataOf] using
      ⟨hvalue,hv _ List.mem_cons_self,h.roundId,hvalue⟩
  | reached value m ht => exact ⟨h.going_on (by simp [inCall]),by simp⟩
  | returned b ht => exact ⟨h.blank hd (by simp [inCall]),by simp⟩
  | reset hb => exact ⟨h.blank hd hcall,by simp⟩

theorem handles_proposes (h : Proposes D node) (ha : Handles rank node src packet now out)
    (hnow : D (.number now)) (hv : ∀ d ∈ dataOf packet.message, D d) :
    Proposes D out.state ∧
      ∀ dst packet, out.send = some (dst,packet) → ∀ d ∈ dataOf packet.message, D d := by
  have hgen : D (.number (generateUniqueId rank now)) := hnow
  cases ha with
  | promised id hm hid =>
    rw [hm] at hv
    refine ⟨⟨h.log,h.own,h.promised,h.least,h.roundId,h.acceptedId,h.call⟩,?_⟩
    intro dst packet' hs
    cases hs
    unfold reported
    have hid := hv _ List.mem_cons_self
    split
    · rename_i hacc
      simpa [dataOf] using ⟨hgen,hid,h.acceptedId,h.own hacc⟩
    · simpa [dataOf] using ⟨hgen,hid⟩
  | refusedPrepare | refusedPropose => exact ⟨h,by simp⟩
  | countedAccept =>
    exact ⟨⟨h.log,h.own,h.promised,h.least,h.roundId,h.acceptedId,h.call⟩,by simp⟩
  | accepted id roundId value hm hid =>
    rw [hm] at hv
    simp only [dataOf, List.mem_cons, List.not_mem_nil, or_false, forall_eq_or_imp,
      forall_eq] at hv
    obtain ⟨hid,hround,hvalue⟩ := hv
    refine ⟨⟨h.log,fun _ => hvalue,fun _ => hvalue,h.least,h.roundId,hround,h.call⟩,?_⟩
    intro dst packet' hs
    cases hs
    simpa [dataOf] using ⟨hgen,hid⟩
  | learned id roundId value hm =>
    rw [hm] at hv
    have hvalue := hv (.value value) (by simp [dataOf])
    exact ⟨⟨h.appended hvalue,h.own,h.promised,h.least,h.roundId,h.acceptedId,h.call⟩,by simp⟩
  | countedPromise id roundId accepted hm =>
    rw [hm] at hv
    refine ⟨?_,by simp⟩
    have hleast := h.least
    unfold Consensus.handlePromiseMessage
    split
    · cases accepted with
      | none =>
        have hle : ¬ (-1 > node.context.maxAcceptedId) := by omega
        simp only [Option.map_none, Option.getD_none, hle, ↓reduceIte]
        exact ⟨h.log,h.own,h.promised,h.least,h.roundId,h.acceptedId,h.call⟩
      | some p =>
        obtain ⟨acceptedId,value⟩ := p
        have hvalue := hv (.value value) (by simp [dataOf])
        dsimp only [Option.map_some, Option.getD_some]
        split
        · rename_i hgt
          exact ⟨h.log,fun _ => hvalue,fun _ => hvalue,by dsimp only; omega,h.roundId,h.acceptedId,
            h.call⟩
        · exact ⟨h.log,h.own,h.promised,h.least,h.roundId,h.acceptedId,h.call⟩
    · exact h

end Consensus

/-- Of the consensus manager's state, a section may replace the log. -/
theorem exec_consensus {node : Server.Node n}
    (h : exec rank node timedOut now op = some (ops,out)) :
    out.state.consensus = { node.consensus with log := out.state.log } ∧
      out.state.received = node.received := by
  cases op with
  | handleMessage src m =>
    cases m with
    | consensus packet => simp [exec, handleMessage] at h
    | alive =>
      simp only [exec, handleMessage, Option.some.injEq, Prod.mk.injEq] at h
      rcases h with ⟨-,rfl⟩
      by_cases hs : rank < src <;> simp [hs, Server.Node.spawn, Server.Node.log]
    | election | victory | state | stateUpdated | recovered =>
      simp only [exec, handleMessage, handleState, Option.some.injEq, Prod.mk.injEq] at h
      rcases h with ⟨-,rfl⟩
      exact ⟨rfl,rfl⟩
  | waitForVictory =>
    simp only [exec, Option.ite_none_left_eq_some, Option.some.injEq, Prod.mk.injEq] at h
    rcases h with ⟨-,-,rfl⟩
    exact ⟨rfl,rfl⟩
  | lockClientConn k =>
    simp only [exec] at h
    split at h
    · cases h
      exact ⟨rfl,rfl⟩
    · contradiction
  | electIfLeader j =>
    simp only [exec, Option.some.injEq, Prod.mk.injEq] at h
    rcases h with ⟨-,rfl⟩
    by_cases hl : node.leaderNodeId = some j <;> simp [hl, Server.Node.spawn, Server.Node.log]
  | send | restartElection | declareIfNoLeader | enableClientConn | setLeaderNodeId
    | setAliveReceived | broadcastIfNoLeader | setIsAlive | setNodeStatus | startRecovery
    | readState | clearRecoveryId | unlockClientConn | updateChecked =>
    simp only [exec, Option.some.injEq, Prod.mk.injEq] at h
    rcases h with ⟨-,rfl⟩
    exact ⟨rfl,rfl⟩

section Server
variable {D : Datum → Prop} {node : Server.Node n} {rank : Fin n}

theorem Proposes.relogged {node : Consensus.Node n} {log : List String} (h : Proposes D node)
    (hl : ∀ v ∈ log, D (.value v)) : Proposes D { node with log := log } :=
  ⟨hl,h.own,h.promised,h.least,h.roundId,h.acceptedId,h.call⟩

/-- A section leaves what it has itself, what the log has, and a reading of the clock. -/
theorem exec_mentions (h : exec rank node timedOut now op = some (ops,out)) (hmem : x ∈ ops)
    (hd : d ∈ mentioned x) :
    d ∈ mentioned op ∨ d = .number now ∨ ∃ v ∈ node.log, d = .value v := by
  cases exec_continues h x hmem with
  | answered _ hx | again _ hx =>
    rcases mem_broadcastElection hx with rfl | ⟨j,rfl⟩ <;> contradiction
  | declared _ hx =>
    rcases List.mem_append.mp hx with hx | hx
    · rcases mem_declareVictory hx with ⟨j,rfl⟩ | rfl <;> contradiction
    · cases List.mem_singleton.mp hx
      contradiction
  | recovered _ _ hx => rcases mem_enableComm hx with rfl | rfl <;> contradiction
  | checked _ _ _ hx =>
    rcases mem_updateChecked hx with ⟨j,-,rfl⟩ | hx | rfl
    · contradiction
    · rcases mem_enableComm hx with rfl | rfl <;> contradiction
    · contradiction
  | updated => contradiction
  | installed src id k state =>
    left
    rw [List.mem_singleton.mp hd]
    exact List.mem_cons_self
  | recovering dst id k hx =>
    simp only [exec, Option.some.injEq, Prod.mk.injEq] at h
    right
    left
    rw [← h.1] at hmem
    rcases mem_pausedRecovery hmem with rfl | rfl | rfl | rfl
    · contradiction
    · exact List.mem_singleton.mp hd
    · contradiction
    · contradiction
  | read dst id k state =>
    simp only [exec, Option.some.injEq, Prod.mk.injEq] at h
    rw [← h.1] at hmem
    simp only [List.mem_singleton, Op.send.injEq, Message.state.injEq, true_and] at hmem
    subst hmem
    rcases List.mem_cons.mp hd with rfl | hd
    · exact .inl List.mem_cons_self
    · obtain ⟨v,hv,rfl⟩ := List.mem_map.mp hd
      exact .inr (.inr ⟨v,hv,rfl⟩)

theorem Holds.sections_after (h : Holds D node) (ht : Turned rank node a out)
    (ha : ∀ d ∈ broughtIn a, D d) (t : ThreadId) :
    ∀ x ∈ out.state.threads t, ∀ d ∈ mentioned x, D d := by
  intro x hx d hd
  have hthread := ht.thread t
  generalize out.state.threads t = ops at hthread hx
  cases hthread with
  | same => exact h.sections t x hx d hd
  | first ops hrun htid hn => cases newThread_opening hn hx <;> contradiction
  | next timedOut now op rest ops out' hrun hops he =>
    rcases List.mem_append.mp hx with hx | hx
    · rcases exec_mentions he hx hd with hold | rfl | ⟨v,hv,rfl⟩
      · exact h.sections t op (hops ▸ List.mem_cons_self) d hold
      · exact ha _ (by simp [hrun, broughtIn])
      · exact h.consensus.log v hv
    · exact h.sections t x (hops ▸ List.mem_cons_of_mem _ hx) d hd

theorem sends_carried (hs : sends rank node op = some (dst,m)) :
    ∀ d ∈ carried m, d ∈ mentioned op := by
  intro d hd
  cases op with
  | handleMessage src m' =>
    cases m' with
    | election =>
      simp only [sends, Server.Node.send, Option.ite_none_left_eq_some, Option.some.injEq,
        Prod.mk.injEq] at hs
      obtain ⟨-,-,rfl⟩ := hs
      contradiction
    | _ => simp [sends] at hs
  | send dst' m' =>
    simp only [sends, Server.Node.send, Option.ite_none_left_eq_some, Option.some.injEq,
      Prod.mk.injEq] at hs
    obtain ⟨-,-,rfl⟩ := hs
    exact hd
  | _ => simp [sends] at hs

theorem ofConsensus_carried {out : Consensus.Result n}
    (h : ∀ dst packet, out.send = some (dst,packet) → ∀ d ∈ dataOf packet.message, D d)
    (hs : (ofConsensus rank node out).send = some (dst,m)) : ∀ d ∈ carried m, D d := by
  simp only [ofConsensus, Option.bind_eq_some_iff, Server.Node.send,
    Option.ite_none_left_eq_some, Option.some.injEq, Prod.mk.injEq] at hs
  obtain ⟨p,hp,-,rfl,rfl⟩ := hs
  exact h p.1 p.2 hp

theorem holds_act (h : Holds D node) (ho : Server.act rank node a = some out)
    (hd : D (.number (-1))) (hv : ∀ d ∈ broughtIn a, D d) :
    Holds D out.state ∧ ∀ dst m, out.send = some (dst,m) → ∀ d ∈ carried m, D d := by
  have hsections := h.sections_after (turned_of_turns (turns_of_act ho)) hv
  cases serverActs_of_act ho with
  | connects | locks | replies | hangsUp => exact ⟨⟨h.consensus,h.received,hsections⟩,by simp⟩
  | elects | fails | recovers => exact ⟨⟨h.consensus,h.received,hsections⟩,by simp⟩
  | calls value now cout hc ha | proceeds value now c cout hc ha =>
    obtain ⟨hp,hs⟩ := acts_proposes h.consensus ha hd hv
    exact ⟨⟨hp,h.received,hsections⟩,fun dst m => ofConsensus_carried hs⟩
  | resets cout ha =>
    obtain ⟨hp,hs⟩ := acts_proposes h.consensus ha hd hv
    exact ⟨⟨hp,h.received,hsections⟩,fun dst m => ofConsensus_carried hs⟩
  | handles now src packet cout hr ha =>
    obtain ⟨hp,hs⟩ := handles_proposes h.consensus ha (hv _ List.mem_cons_self)
      (h.received src packet hr)
    exact ⟨⟨hp,by simp [ofConsensus],hsections⟩,fun dst m => ofConsensus_carried hs⟩
  | runs t timedOut now op rest ops out' ht he =>
    obtain ⟨hcons,hrec⟩ := exec_consensus he
    have hframe := exec_frame he
    have hop : op ∈ node.threads t := ht ▸ List.mem_cons_self
    refine ⟨⟨?_,?_,hsections⟩,?_⟩
    · rw [Server.Node.setThread_consensus, hcons]
      apply h.consensus.relogged
      rw [hframe.log]
      cases hi : installs op with
      | none => exact h.consensus.log
      | some p =>
        cases op with
        | handleMessage src m =>
          cases m with
          | state id k state =>
            cases hi
            intro v hmem
            exact h.sections t _ hop _ (List.mem_cons_of_mem _ (List.mem_map_of_mem hmem))
          | _ => contradiction
        | _ => contradiction
    · rw [Server.Node.setThread_received, hrec]
      exact h.received
    · intro dst m hs d hmem
      rw [(exec_ran he).send] at hs
      exact h.sections t op hop d (sends_carried hs d hmem)

theorem holds_accept (h : Holds D node) (ha : accept rank node tag src m = some x)
    (hv : ∀ d ∈ carried m, D d) : Holds D x := by
  have htaken := taken_of_accept ha
  refine ⟨?_,?_,?_⟩
  · cases accepts_of_accept ha <;> exact h.consensus
  · cases accepts_of_accept ha with
    | consensus src packet hr hb =>
      intro src' packet' hr' d hmem
      cases hr'
      exact hv d hmem
    | _ => exact h.received
  · intro t y hy d hmem
    rcases htaken.came hy with hold | ⟨rfl,-⟩
    · exact h.sections t y hold d hmem
    · exact hv d hmem

theorem start_holds (elected : Option (Fin n)) (hd : D (.number (-1))) (i : Fin n) :
    Holds D (initialNode elected i) :=
  ⟨⟨by simp [initialNode],by simp [initialNode],by simp [initialNode],by simp [initialNode],hd,hd,
    by simp [initialNode, inCall]⟩,by simp [initialNode],by simp [initialNode]⟩

theorem step_holds {s t : Server.Cluster n} (h : (Server.process elected).Step s l t e)
    (hs : (∀ i, Holds D (s.nodes i)) ∧ Conveys D s) (hd : D (.number (-1)))
    (hv : ∀ i a, l = .act i a → ∀ d ∈ broughtIn a, D d) :
    (∀ i, Holds D (t.nodes i)) ∧ Conveys D t := by
  apply h.keeps (J := fun _ node => Holds D node) hs
  · rintro i a out rfl ho
    exact holds_act (hs.1 i) ho hd (hv i a rfl)
  · rintro k src i m x rfl hm hx
    exact holds_accept (hs.1 i) hx hm

end Server

end Algorep.Proofs
