import Algorep.Program.Consensus

namespace Algorep.Proofs
open Kit Program Program.Consensus

/-- What the steps of a node's own threads can be. -/
inductive Acts (rank : Fin n) (node : Node n) : Action → Result n → Prop
  | called (value : String) (now : Nat) (ht : node.thread = .idle) :
      Acts rank node (.startConsensus value now) {
      state := { node with
        context := { node.context with roundId := generateUniqueId rank now }
        calls := node.calls + 1
        thread := .prepare value (.prepare (generateUniqueId rank now)) (others rank) }
      events := [.called (node.calls + 1) value (generateUniqueId rank now)] }
  | sentPrepare (value : String) (m : Message) (dst : Fin n) (rest : List (Fin n))
      (ht : node.thread = .prepare value m (dst::rest)) : Acts rank node (.proceed now) {
      state := { node with thread := .prepare value m rest }
      send := some (dst,⟨m,node.calls⟩) }
  | promisesSampled (value : String) (m : Message) (ht : node.thread = .prepare value m []) :
      Acts rank node (.proceed now) {
      state := { node with
        thread := if receivePromises n node.context then .majorityPromised value
          else .logWait false }
      events := [.promisesSampled node.calls (receivePromises n node.context)] }
  | proposed (value : String) (now : Nat) (ht : node.thread = .majorityPromised value) :
      Acts rank node (.proceed now) {
      state := { node with
        thread := .propose value (broadcastPropose rank now value node.context) (others rank) }
      events := [.proposed node.calls node.context (proposeValue value node.context)] }
  | sentPropose (value : String) (m : Message) (dst : Fin n) (rest : List (Fin n))
      (ht : node.thread = .propose value m (dst::rest)) : Acts rank node (.proceed now) {
      state := { node with thread := .propose value m rest }
      send := some (dst,⟨m,node.calls⟩) }
  | acceptsSampled (value : String) (m : Message) (ht : node.thread = .propose value m []) :
      Acts rank node (.proceed now) {
      state := { node with
        thread := if receiveAccepts n node.context then .majorityAccepted value
          else .logWait false }
      events := [.acceptsSampled node.calls value (receiveAccepts n node.context)] }
  | appended (value : String) (ht : node.thread = .majorityAccepted value) : Acts rank node (.proceed now) {
      state := { node with log := node.log ++ [value], thread := .logWritten value }
      events := [.appended rank node.calls value] }
  | announced (value : String) (now : Nat) (ht : node.thread = .logWritten value) :
      Acts rank node (.proceed now) {
      state := { node with
        thread := .accepted value (broadcastAccepted rank now value node.context) (others rank) }
      events := [.announced node.calls value] }
  | sentAccepted (value : String) (m : Message) (dst : Fin n) (rest : List (Fin n))
      (ht : node.thread = .accepted value m (dst::rest)) : Acts rank node (.proceed now) {
      state := { node with thread := .accepted value m rest }
      send := some (dst,⟨m,node.calls⟩) }
  | reached (value : String) (m : Message) (ht : node.thread = .accepted value m []) :
      Acts rank node (.proceed now) { state := { node with thread := .logWait true } }
  | returned (b : Bool) (ht : node.thread = .logWait b) : Acts rank node (.proceed now) {
      state := { node with context := {}, thread := .idle }
      events := [.returned node.calls b] }
  | reset (hb : node.resetting = true) : Acts rank node .resetContext {
      state := { node with context := {}, resetting := false } }

theorem acts_of_act (h : act rank node a = some out) : Acts rank node a out := by
  cases a with
  | startConsensus value now =>
    simp only [act, startConsensus] at h
    split at h
    · rename_i ht
      cases h
      exact .called value now ht
    · contradiction
  | proceed now =>
    simp only [act, proceed] at h
    split at h
    · contradiction
    · rename_i ht; cases h; exact .sentPrepare _ _ _ _ ht
    · rename_i ht; cases h; exact .promisesSampled _ _ ht
    · rename_i ht; cases h; exact .proposed _ now ht
    · rename_i ht; cases h; exact .sentPropose _ _ _ _ ht
    · rename_i ht; cases h; exact .acceptsSampled _ _ ht
    · rename_i ht; cases h; exact .appended _ ht
    · rename_i ht; cases h; exact .announced _ now ht
    · rename_i ht; cases h; exact .sentAccepted _ _ _ _ ht
    · rename_i ht; cases h; exact .reached _ _ ht
    · rename_i ht; cases h; exact .returned _ ht
  | resetContext =>
    simp only [act] at h
    split at h
    · rename_i hb
      cases h
      exact .reset hb
    · contradiction

/-- A call is over only when its last wait ends. -/
theorem acts_idle {node : Node n} (ha : Acts rank node a out) (hi : out.state.thread = .idle) :
    node.thread = .idle ∨ ∃ b now, node.thread = .logWait b ∧ a = .proceed now := by
  cases ha with
  | promisesSampled value m ht | acceptsSampled value m ht =>
    dsimp only at hi
    split at hi <;> contradiction
  | returned b ht => exact .inr ⟨b,_,ht,rfl⟩
  | reset hb => exact .inl hi
  | _ => contradiction

/-- Only a call under way goes on. -/
theorem acts_busy {node : Node n} (ha : Acts rank node (.proceed now) out) :
    node.thread ≠ .idle := by
  intro hi
  cases ha <;> simp_all

theorem acts_returns {node : Node n} (ha : Acts rank node (.proceed now) out)
    (ht : node.thread = .logWait b) : out.state.thread = .idle := by
  cases ha with
  | returned => rfl
  | _ => simp_all

/-- The accepted pair a PROMISE reports. -/
def reported (context : Context) : Option (Int × String) :=
  if context.valueAccepted then some (context.acceptedId,context.acceptedValue) else none

/-- What the handling of a message can be, with the guard of each branch. -/
inductive Handles (rank : Fin n) (node : Node n) (src : Fin n) (packet : Packet) (now : Nat) :
    Result n → Prop
  | promised (id : Int) (hm : packet.message = .prepare id) (hid : node.maxRoundId < id) :
      Handles rank node src packet now {
      state := { node with maxRoundId := id }
      send := some (src,
        ⟨.promise (generateUniqueId rank now) id (reported node.context),packet.call⟩)
      events := [.promised src packet.call id] }
  | refusedPrepare (id : Int) (hm : packet.message = .prepare id) (hid : id ≤ node.maxRoundId) :
      Handles rank node src packet now { state := node }
  | countedPromise (id roundId : Int) (accepted : Option (Int × String))
      (hm : packet.message = .promise id roundId accepted) : Handles rank node src packet now {
      state := { node with context := handlePromiseMessage roundId accepted node.context } }
  | accepted (id roundId : Int) (value : String)
      (hm : packet.message = .propose id roundId value) (hid : roundId = node.maxRoundId) :
      Handles rank node src packet now {
      state := { node with
        context := { node.context with
          valueAccepted := true, acceptedId := roundId, acceptedValue := value } }
      send := some (src,⟨.accept (generateUniqueId rank now) id,packet.call⟩)
      events := [.accepted src packet.call roundId value] }
  | refusedPropose (id roundId : Int) (value : String)
      (hm : packet.message = .propose id roundId value) (hid : roundId ≠ node.maxRoundId) :
      Handles rank node src packet now { state := node }
  | countedAccept (id roundId : Int) (hm : packet.message = .accept id roundId) :
      Handles rank node src packet now {
      state := { node with context := handleAcceptMessage node.context } }
  | learned (id roundId : Int) (value : String)
      (hm : packet.message = .accepted id roundId value) : Handles rank node src packet now {
      state := { node with log := node.log ++ [value], resetting := true }
      events := [.appended src packet.call value] }

theorem handles_of_handle (h : handleMessage rank node src packet now = some out) :
    node.resetting = false ∧ Handles rank node src packet now out := by
  unfold handleMessage at h
  split at h
  · contradiction
  · rename_i hb
    refine ⟨by simpa using hb,?_⟩
    split at h
    · rename_i id hm
      by_cases hid : node.maxRoundId < id
      · by_cases ha : node.context.valueAccepted = true
        · simp only [handlePrepareMessage, gt_iff_lt, hid, ha, ↓reduceIte] at h
          cases h
          have hp : Handles rank node src packet now _ := .promised id hm hid
          simpa [reported, ha] using hp
        · simp only [handlePrepareMessage, gt_iff_lt, hid, ha, ↓reduceIte] at h
          cases h
          have hp : Handles rank node src packet now _ := .promised id hm hid
          simpa [reported, ha] using hp
      · simp only [handlePrepareMessage, gt_iff_lt, hid, ↓reduceIte] at h
        cases h
        exact .refusedPrepare id hm (by omega)
    · rename_i id roundId accepted hm
      cases h
      exact .countedPromise id roundId accepted hm
    · rename_i id roundId value hm
      by_cases hid : roundId = node.maxRoundId
      · subst hid
        simp only [handleProposeMessage, ↓reduceIte] at h
        cases h
        exact .accepted id node.maxRoundId value hm rfl
      · simp only [handleProposeMessage, hid, ↓reduceIte] at h
        cases h
        exact .refusedPropose id roundId value hm hid
    · rename_i id roundId hm
      cases h
      exact .countedAccept id roundId hm
    · rename_i id roundId value hm
      cases h
      exact .learned id roundId value hm

/-- The receiver does not move the proposer's thread. -/
theorem handles_thread {node : Node n} (ha : Handles rank node src packet now out) :
    out.state.thread = node.thread := by
  cases ha <;> rfl

end Algorep.Proofs
