import Algorep.Proofs.PromisedRounds

namespace Algorep.Proofs
open Kit Program Program.Consensus

/-- The value `broadcastPropose` would select now, while it is still to run. -/
def selected (s : Node n) : Option String :=
  match s.thread with
  | .prepare value _ _ | .majorityPromised value => some (proposeValue value s.context)
  | _ => none

/-- What the round of a proposer rests on. -/
def proposerView (s : Node n) : Int × Nat × Nat × Int × Option String :=
  (s.context.roundId,s.context.promiseCount,s.context.acceptCount,s.context.maxAcceptedId,selected s)

/-- An accepted PROPOSE that changes the value `broadcastPropose` would select. -/
def overwrites (s : Node n) : Message → Bool
  | .propose _ roundId value => (selected s).isSome && roundId == s.maxRoundId &&
    s.context.maxAcceptedId != -1 && value != s.context.acceptedValue
  | _ => false

/-- No ACCEPTED and no overwriting PROPOSE meets a node in a round. -/
def Undisturbed (s : Node n) : Input (Fin n) Action Nat Packet → Prop
  | .act .resetContext => s.thread = .idle
  | .act _ => True
  | .handle _ packet _ => overwrites s packet.message = false

/-- The messages of other proposers leave a round as it is, but for a PROPOSE that
overwrites. -/
theorem handled_view_iff {s : Node n} (ha : Handles rank s src packet now out)
    (hm : isReply packet.message = false) :
    proposerView out.state = proposerView s ↔ overwrites s packet.message = false := by
  cases ha with
  | countedPromise id roundId accepted he | countedAccept id roundId he =>
    rw [he] at hm
    contradiction
  | promised id he | refusedPrepare id he | learned id roundId value he =>
    rw [he]
    exact ⟨fun _ => rfl,fun _ => rfl⟩
  | refusedPropose id roundId value he hid =>
    rw [he]
    simp [overwrites, hid]
  | accepted id roundId value he hid =>
    rw [he]
    cases ht : s.thread with
    | prepare v m rest | majorityPromised v =>
      by_cases hmax : s.context.maxAcceptedId = -1 <;>
        simp [proposerView, selected, ht, overwrites, hid, hmax, proposeValue]
    | _ => simp [proposerView, selected, ht, overwrites]

/-- The round id of a broadcast. -/
def broadcastRound : Message → Option Int
  | .prepare id => some id
  | .propose _ roundId _ | .accepted _ roundId _ => some roundId
  | _ => none

/-- The message `startConsensus` is broadcasting. -/
def broadcasting : Thread n → Option Message
  | .prepare _ m _ | .propose _ m _ | .accepted _ m _ => some m
  | _ => none

/-- Every broadcast of a call, sent or still to send, is of the call's own round. -/
structure OwnCalls (s : Node n) (h : List (Obs (Fin n) Packet (Event n))) : Prop where
  current : s.thread ≠ .idle → ∃ v, .did (.called s.calls v s.context.roundId) ∈ h
  carried : ∀ m r, broadcasting s.thread = some m → broadcastRound m = some r →
    ∃ v, .did (.called s.calls v r) ∈ h
  sent : ∀ dst packet r, .sent dst packet ∈ h → broadcastRound packet.message = some r →
    ∃ v, .did (.called packet.call v r) ∈ h

theorem OwnCalls.extend {s s' : Node n} {h h' : List (Obs (Fin n) Packet (Event n))}
    (hs : OwnCalls s h)
    (hc : s'.thread ≠ .idle → ∃ v, .did (.called s'.calls v s'.context.roundId) ∈ h ++ h')
    (hb : ∀ m r, broadcasting s'.thread = some m → broadcastRound m = some r →
      ∃ v, .did (.called s'.calls v r) ∈ h ++ h')
    (hn : ∀ dst packet r, .sent dst packet ∈ h' → broadcastRound packet.message = some r →
      ∃ v, .did (.called packet.call v r) ∈ h) : OwnCalls s' (h ++ h') := by
  refine ⟨hc,hb,?_⟩
  intro dst packet r hm hr
  have hold : ∃ v, .did (.called packet.call v r) ∈ h := by
    rcases List.mem_append.mp hm with hm | hm
    · exact hs.sent dst packet r hm hr
    · exact hn dst packet r hm hr
  obtain ⟨v,hv⟩ := hold
  exact ⟨v,List.mem_append_left _ hv⟩

theorem acts_ownCalls {s : Node n} (hs : OwnCalls s h) (hok : Undisturbed s (.act a))
    (ha : Acts rank s a out) : OwnCalls out.state (h ++ out.trace) := by
  have hold : ∀ c r, (∃ v, .did (.called c v r) ∈ h) → ∃ v, .did (.called c v r) ∈ h ++ out.trace :=
    fun c r hv => hv.imp fun _ hm => List.mem_append_left _ hm
  cases ha with
  | called value now ht =>
    have hnew : ∃ v, .did (.called (s.calls + 1) v (generateUniqueId rank now)) ∈ h ++
        [Obs.did (Event.called (s.calls + 1) value (generateUniqueId rank now))] :=
      ⟨value,List.mem_append_right _ List.mem_cons_self⟩
    refine hs.extend (fun _ => hnew) ?_ (by simp [Outcome.trace])
    intro m r hb hr
    cases hb
    cases hr
    exact hnew
  | sentPrepare value m dst rest ht | sentPropose value m dst rest ht
  | sentAccepted value m dst rest ht =>
    have hcarried := hs.carried m
    rw [ht] at hcarried
    refine hs.extend (fun _ => hold _ _ (hs.current (by simp [ht]))) ?_ ?_
    · intro m' r hb hr
      cases hb
      exact hold _ _ (hcarried r rfl hr)
    · intro d packet r hm hr
      simp only [Outcome.trace, List.map_nil, Option.map_some, Option.toList_some,
        List.nil_append, List.mem_singleton] at hm
      cases hm
      exact hcarried r rfl hr
  | proposed value now ht | announced value now ht =>
    have hcurrent := hold _ _ (hs.current (by simp [ht]))
    refine hs.extend (fun _ => hcurrent) ?_ (by simp [Outcome.trace])
    intro m r hb hr
    cases hb
    cases hr
    exact hcurrent
  | promisesSampled value m ht | acceptsSampled value m ht =>
    refine hs.extend (fun _ => hold _ _ (hs.current (by simp [ht]))) ?_ (by simp [Outcome.trace])
    intro m' r hb
    dsimp only at hb
    split at hb <;> contradiction
  | appended value ht | reached value m ht =>
    exact hs.extend (fun _ => hold _ _ (hs.current (by simp [ht]))) (by simp [broadcasting])
      (by simp [Outcome.trace])
  | returned b ht => exact hs.extend (by simp) (by simp [broadcasting]) (by simp [Outcome.trace])
  | reset hb =>
    have hidle : s.thread = .idle := hok
    exact hs.extend (by simp [hidle]) (by simp [hidle, broadcasting]) (by simp [Outcome.trace])

theorem handles_ownCalls {rank : Fin n} (hs : OwnCalls s h)
    (ha : Handles rank s src packet now out) :
    OwnCalls out.state (h ++ .received src packet::out.trace) := by
  have hold : ∀ c r, (∃ v, .did (.called c v r) ∈ h) →
      ∃ v, .did (.called c v r) ∈ h ++ .received src packet::out.trace :=
    fun c r hv => hv.imp fun _ hm => List.mem_append_left _ hm
  have hthread := handles_thread ha
  have hfields : out.state.calls = s.calls ∧ out.state.context.roundId = s.context.roundId := by
    cases ha with
    | countedPromise => exact ⟨rfl,handlePromise_roundId _ _ _⟩
    | _ => exact ⟨rfl,rfl⟩
  refine hs.extend ?_ ?_ ?_
  · intro hb
    rw [hfields.1, hfields.2]
    exact hold _ _ (hs.current (hthread ▸ hb))
  · intro m r hb hr
    rw [hfields.1]
    exact hold _ _ (hs.carried m r (hthread ▸ hb) hr)
  · intro dst p r hm hr
    rcases List.mem_cons.mp hm with hm | hm
    · cases hm
    · cases ha
      all_goals simp [Outcome.trace] at hm
      all_goals
        obtain ⟨rfl,rfl⟩ := hm
        contradiction

theorem run_ownCalls (hr : LocalRun (process n) Undisturbed i s h) : OwnCalls s h := by
  induction hr with
  | start => exact ⟨fun hb => absurd rfl hb,by simp [process, broadcasting],by simp⟩
  | act _ hok ho ih => exact acts_ownCalls ih hok (acts_of_act ho)
  | handle _ _ ho ih => exact handles_ownCalls ih (handles_of_handle ho).2

/-- No node resets its context for an ACCEPTED while it is inside `startConsensus`, and
none accepts a PROPOSE that overwrites the value it would select. -/
def undisturbed (_ : History n) (s : Cluster n) (l : Move n) : Bool :=
  match l.2 with
  | .act i .resetContext => (s.nodes i).thread == .idle
  | .deliver src dst _ => !l.1 dst src ||
    (s.chan src dst).head?.all (fun m => !overwrites (s.nodes dst) m.message)
  | _ => true

theorem undisturbed_local (i : Fin n) : Process.Respects (holding undisturbed) i Undisturbed := by
  constructor
  · intro es s up a hok
    cases a with
    | resetContext => simpa [Undisturbed, holding, undisturbed] using hok
    | _ => trivial
  · intro es s up src o m rest hok hc hu
    simpa [Undisturbed, holding, undisturbed, hc, hu] using hok

/-- The receiver of `p` handles a PREPARE, PROPOSE or ACCEPTED, or ends handling the
last. -/
def handlesOther (s : Cluster n) (p : Fin n) (l : Move n) : Bool :=
  match l.2 with
  | .act i .resetContext => i == p
  | .deliver src dst _ => dst == p && (s.chan src dst).head?.all (fun m => !isReply m.message)
  | _ => false

theorem reset_view {s : Node n} (hr : 0 ≤ s.context.roundId) (ha : Acts rank s .resetContext out) :
    proposerView out.state ≠ proposerView s := by
  cases ha with
  | reset hb =>
    intro he
    have hround : (-1 : Int) = s.context.roundId := congrArg Prod.fst he
    omega

/-- After undisturbed steps the next message of another proposer leaves a round in
progress as it is exactly when it is undisturbing too; and all broadcasts of a call
are of its own round. -/
theorem round_undisturbed (hr : Reach (n := n) (holding undisturbed) s es) (p : Fin n) :
    (∀ l t e, (process n).network.step s l = some (t,e) → handlesOther s p l = true →
      (s.nodes p).thread ≠ .idle →
      (proposerView (t.nodes p) = proposerView (s.nodes p) ↔ undisturbed es s l = true)) ∧
    ∀ dst packet r, .sent dst packet ∈ historyAt p es → broadcastRound packet.message = some r →
      ∃ v, .did (.called packet.call v r) ∈ historyAt p es := by
  have hlocal := Process.local_run (undisturbed_local p) hr
  have hown := run_ownCalls hlocal
  refine ⟨?_,hown.sent⟩
  rintro ⟨up,l⟩ t e hstep hother hbusy
  cases Process.step_iff.mp hstep with
  | act i a out ho =>
    cases a with
    | resetContext =>
      have hi : i = p := by simpa [handlesOther] using hother
      subst hi
      obtain ⟨v,hcalled⟩ := hown.current hbusy
      have hpos := run_called_nonneg hlocal hcalled
      have ha : Acts i (s.nodes i) .resetContext out := acts_of_act ho
      have hview := reset_view hpos ha
      simpa [undisturbed, hbusy] using hview
    | _ => contradiction
  | handle src dst o m rest out hc hu ho =>
    obtain ⟨rfl,hm⟩ : dst = p ∧ isReply m.message = false := by
      simpa [handlesOther, hc] using hother
    have hup : up dst src = true := hu
    rw [Net.commit_self, handled_view_iff (handles_of_handle ho).2 hm]
    simp [undisturbed, hc, hup]
  | discard src dst o m rest hc hu =>
    obtain ⟨rfl,-⟩ : dst = p ∧ isReply m.message = false := by
      simpa [handlesOther, hc] using hother
    have hup : up dst src = false := hu
    simp [undisturbed, hup]

/-- `q` proposes; meanwhile it handles a PREPARE of `p`. -/
def crossedPrepare (p q r : Fin n) : List (Move n) :=
  [.call q "b" 10,.proceed q 10,.proceed q 10,.deliver q r 10,.deliver r q 10,.proceed q 15,
    .call p "a" 16,.proceed p 16,.proceed p 16,.deliver p q 16,.proceed q 17,.proceed q 17,
    .proceed q 17]

theorem crossedPrepare_sends : outcome (n := 3) undisturbed (crossedPrepare 0 1 2) (fun r =>
    decide (.sent 2 ⟨.propose 17 10 "b",1⟩ ∈ historyAt 1 r.2)) = some true := by
  decide

theorem round_undisturbed_crossedPrepare : ∃ (s : Cluster 3) (es : History 3),
    Reach (holding undisturbed) s es ∧ .sent 2 ⟨.propose 17 10 "b",1⟩ ∈ historyAt 1 es ∧
    ∃ v, .did (.called 1 v 10) ∈ historyAt 1 es := by
  obtain ⟨s,es,hr,h⟩ := Machine.exists_reach (fun _ _ _ h => h) crossedPrepare_sends
  have hsent := of_decide_eq_true h
  exact ⟨s,es,hr,hsent,(round_undisturbed hr 1).2 _ _ _ hsent rfl⟩

/-- `q` passes its promise check. Then `p` commits "a", and `q` handles its messages
before it proposes. -/
def learnsInRound (p q r : Fin n) : List (Move n) :=
  [.call q "b" 10,.proceed q 10,.proceed q 10,.deliver q r 10,.deliver r q 10,.proceed q 15,
    .call p "a" 20,.proceed p 20,.proceed p 20,.deliver p r 20,.deliver r p 20,.proceed p 25,
    .proceed p 25,.proceed p 25,.proceed p 25,.deliver p r 25,.deliver r p 25,.proceed p 30,
    .proceed p 30,.proceed p 30,.proceed p 30,.proceed p 30,.deliver p q 30,.deliver p q 30,
    .deliver p q 30,.act q .resetContext,.proceed q 31,.proceed q 31,.proceed q 31]

/-- `q` hears of "a" from `r`, and promises a round of `p'`, which proposes "c" to it. -/
def acceptsInRound (p p' q r : Fin n) : List (Move n) :=
  [.call p "a" 10,.proceed p 10,.proceed p 10,.proceed p 10,.deliver p r 10,.deliver r p 10,
    .proceed p 15,.proceed p 15,.proceed p 15,.proceed p 15,.proceed p 15,.deliver p r 15,
    .call q "b" 30,.proceed q 30,.proceed q 30,.proceed q 30,.deliver q r 30,.deliver r q 30,
    .call p' "c" 40,.proceed p' 40,.proceed p' 40,.proceed p' 40,.deliver p' q 40,
    .deliver q p' 40,.deliver q p' 40,.proceed p' 45,.proceed p' 45,.proceed p' 45,
    .proceed p' 45,.proceed p' 45,.deliver p' q 45]

theorem learnsInRound_sends : outcome (n := 3) anyMove (learnsInRound 0 1 2) (fun r =>
    decide (.did (.called 1 "b" 10) ∈ historyAt 1 r.2 ∧
      .sent 2 ⟨.propose 31 (-1) "b",1⟩ ∈ historyAt 1 r.2)) = some true := by
  decide

theorem acceptsInRound_selects : outcome (n := 4) anyMove (acceptsInRound 0 1 2 3) (fun r =>
    ((process 4).network.step r.1 (Move.deliver 1 2 45)).map (fun t =>
      (handlesOther r.1 2 (Move.deliver 1 2 45),selected (r.1.nodes 2),selected (t.1.nodes 2)))) =
    some (some (true,some "a",some "c")) := by
  decide

/-- An ACCEPTED makes `q` propose under the id -1, and a PROPOSE changes the value that
it would select. -/
theorem round_disturbed :
    (∃ (s : Cluster 3) (es : History 3), Reach Machine.free s es ∧
      .did (.called 1 "b" 10) ∈ historyAt 1 es ∧
      .sent 2 ⟨.propose 31 (-1) "b",1⟩ ∈ historyAt 1 es) ∧
    ∃ (s : Cluster 4) (es : History 4) (t : Cluster 4 × History 4), Reach Machine.free s es ∧
      (process 4).network.step s (Move.deliver 1 2 45) = some t ∧
      handlesOther s 2 (Move.deliver 1 2 45) = true ∧ selected (s.nodes 2) = some "a" ∧
      selected (t.1.nodes 2) = some "c" := by
  constructor
  · obtain ⟨s,es,hr,h⟩ := Machine.exists_reach (fun _ _ _ _ => trivial) learnsInRound_sends
    exact ⟨s,es,hr,of_decide_eq_true h⟩
  · obtain ⟨s,es,hr,h⟩ := Machine.exists_reach (fun _ _ _ _ => trivial) acceptsInRound_selects
    obtain ⟨t,hstep,h⟩ := Option.map_eq_some_iff.mp h
    simp only [Prod.mk.injEq] at h
    exact ⟨s,es,t,hr,hstep,h⟩

end Algorep.Proofs
