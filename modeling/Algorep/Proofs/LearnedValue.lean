import Algorep.Proofs.CountedAccepts
import Algorep.Proofs.PromisedRounds

namespace Algorep.Proofs
open Kit Program Program.Consensus

/-- An event of a call with argument `v` that is consistent with it. -/
def Says (v : String) : Event n → Prop
  | .called _ x _ | .acceptsSampled _ x _ | .appended _ _ x | .announced _ x => x = v
  | .proposed _ context w => w = proposeValue v context
  | _ => True

/-- All events of one call speak of the same argument. -/
theorem Told.consistent {rank : Fin n} (ht : Told rank c thread es) : ∃ v, ∀ e ∈ es, Says v e := by
  induction ht with
  | never => exact ⟨"",by simp⟩
  | @prepare _ _ v | @unpromised _ v | @promised _ v | @propose _ _ v | @unaccepted _ v
  | @accepted _ v | @written _ v | @announced _ _ v | @reached _ v => exact ⟨v,by simp [Says]⟩
  | returned _ ih =>
    obtain ⟨v,hv⟩ := ih
    refine ⟨v,?_⟩
    intro e he
    rcases List.mem_append.mp he with he | he
    · exact hv e he
    · rw [List.mem_singleton.mp he]
      trivial

theorem Recorded.consistent {rank : Fin n} (hr : Recorded rank node h) (c : Nat) :
    ∃ v, ∀ e, .did e ∈ h → callOf rank e = some c → Says v e := by
  have hstory : ∃ v, ∀ e ∈ ofCall rank c h, Says v e := by
    rcases Nat.lt_trichotomy c node.calls with hlt | rfl | hgt
    · exact (hr.past c hlt).consistent
    · exact hr.current.consistent
    · exact ⟨"",by simp [hr.future c hgt]⟩
  obtain ⟨v,hv⟩ := hstory
  exact ⟨v,fun e he hc => hv e (mem_ofCall he hc)⟩

theorem propose_packet_selected {ok : Guard n} (hr : Reach ok s es)
    (hm : .sent dst ⟨.propose pid roundId w,c⟩ ∈ historyAt p es) :
    ∃ context : Context, .did (.proposed c context w) ∈ historyAt p es ∧
      roundId = context.roundId :=
  run_sourced (reach_local hr p) hm

/-- Accepting answers a PROPOSE that its proposer did send. -/
theorem accepted_was_proposed {ok : Guard n} (hr : Reach ok s es)
    (hm : .did (.accepted p c roundId w) ∈ historyAt i es) :
    ∃ pid, .sent i ⟨.propose pid roundId w,c⟩ ∈ historyAt p es := by
  obtain ⟨pid,hp⟩ := run_prompted (reach_local hr i) hm
  exact ⟨pid,Process.received_was_sent hr hp⟩

/-- A run of the cluster as its moves, each with the state it was made in. -/
abbrev ConsensusTrace (n : Nat) := List (Cluster n × Move n)

/-- What has happened at node `i` in a run. -/
def happened (i : Fin n) (es : ConsensusTrace n) : List (Obs (Fin n) Packet (Event n)) :=
  historyAt i ((process n).network.history es)

def countedAfter (node : Node n) (counted : List (Fin n × Nat)) :
    Input (Fin n) Action Nat Packet → List (Fin n × Nat)
  | .act (.startConsensus _ _) => counted
  | .act (.proceed _) =>
    match node.thread with
    | .logWait _ => []
    | _ => counted
  | .act .resetContext => []
  | .handle src packet _ =>
    if isAccept packet.message then counted ++ [(src,packet.call)] else counted

/-- The ACCEPTs that node `i` has counted since its context was last reset: who sent each, and
the call that it answers. -/
def countedAt (i : Fin n) (es : ConsensusTrace n) : List (Fin n × Nat) :=
  Process.madeOf countedAfter [] i es

/-- ACCEPT `a` was counted when call `c` of `p` tested for its majority. -/
def FoundCounted (es : ConsensusTrace n) (p : Fin n) (c : Nat) (a : Fin n × Nat) : Prop :=
  ∃ before u up now v m, before ++ [(u,up,.act p (.proceed now))] <+: es ∧
    (u.nodes p).calls = c ∧ (u.nodes p).thread = .propose v m [] ∧ a ∈ countedAt p before

/-- `v` is what call `c` of `p` proposes, appends and announces, and what each acceptor that it
counted stored. -/
structure LearnedIsAccepted (es : ConsensusTrace n) (p : Fin n) (c : Nat) (v : String) : Prop where
  selected : ∀ context w, .did (.proposed c context w) ∈ happened p es → w = v
  proposed : ∀ dst pid roundId w,
    .sent dst ⟨.propose pid roundId w,c⟩ ∈ happened p es → w = v
  appended : ∀ w, .did (.appended p c w) ∈ happened p es → w = v
  announced : ∀ dst pid roundId w,
    .sent dst ⟨.accepted pid roundId w,c⟩ ∈ happened p es → w = v
  stored : ∀ i c', FoundCounted es p c (i,c') →
    (∃ roundId, .did (.accepted p c' roundId v) ∈ happened i es) ∧
    ∀ roundId w, .did (.accepted p c' roundId w) ∈ happened i es → w = v

/-- The argument of a call that still collects PROMISEs. -/
def collecting : Thread n → Option String
  | .prepare value _ _ | .majorityPromised value => some value
  | _ => none

/-- The argument of a call that has not tested its ACCEPTs yet. -/
def counting : Thread n → Option String
  | .prepare value _ _ | .majorityPromised value | .propose value _ _ => some value
  | _ => none

def calledWith (c : Nat) : Event n → Option String
  | .called c' value _ => if c' = c then some value else none
  | _ => none

/-- The argument of call `c`. -/
def argumentOf (c : Nat) (h : List (Obs (Fin n) Packet (Event n))) : Option String :=
  (eventsOf (calledWith c) h).head?

/-- What a call is given to handle speaks of its own argument: a PROMISE of its round with a
larger accepted id than any before; a PROPOSE that the node itself accepts after such a PROMISE;
and every ACCEPT that is counted, those from before the call included. -/
def BringsArgument (h : List (Obs (Fin n) Packet (Event n))) (node : Node n)
    (counted : List (Fin n × Nat)) : Input (Fin n) Action Nat Packet → Prop
  | .act (.startConsensus value _) => ∀ a ∈ counted, argumentOf a.2 h = some value
  | .act _ => True
  | .handle _ packet _ =>
    match packet.message with
    | .promise _ roundId (some (acceptedId,value)) =>
      roundId = node.context.roundId → acceptedId > node.context.maxAcceptedId →
        ∀ v ∈ collecting node.thread, value = v
    | .propose _ roundId value =>
      roundId = node.maxRoundId → node.context.maxAcceptedId ≠ -1 →
        ∀ v ∈ collecting node.thread, value = v
    | .accept _ _ => ∀ v ∈ counting node.thread, argumentOf packet.call h = some v
    | _ => True

def ownValues (es : ConsensusTrace n) (s : Cluster n) (l : Move n) : Prop :=
  ∀ i, ∀ input ∈ Process.inputAt i (s,l),
    BringsArgument (happened i es) (s.nodes i) (countedAt i es) input

instance (h : List (Obs (Fin n) Packet (Event n))) (node : Node n)
    (counted : List (Fin n × Nat)) (input : Input (Fin n) Action Nat Packet) :
    Decidable (BringsArgument h node counted input) :=
  match input with
  | .act (.startConsensus value _) =>
    inferInstanceAs (Decidable (∀ a ∈ counted, argumentOf a.2 h = some value))
  | .act (.proceed _) | .act .resetContext => .isTrue trivial
  | .handle _ ⟨.promise _ roundId (some (acceptedId,value)),_⟩ _ =>
    inferInstanceAs (Decidable (roundId = node.context.roundId →
      acceptedId > node.context.maxAcceptedId → ∀ v ∈ collecting node.thread, value = v))
  | .handle _ ⟨.propose _ roundId value,_⟩ _ =>
    inferInstanceAs (Decidable (roundId = node.maxRoundId →
      node.context.maxAcceptedId ≠ -1 → ∀ v ∈ collecting node.thread, value = v))
  | .handle _ ⟨.accept _ _,call⟩ _ =>
    inferInstanceAs (Decidable (∀ v ∈ counting node.thread, argumentOf call h = some v))
  | .handle _ ⟨.promise _ _ none,_⟩ _ | .handle _ ⟨.prepare _,_⟩ _
  | .handle _ ⟨.accepted _ _ _,_⟩ _ => .isTrue trivial

instance (es : ConsensusTrace n) (s : Cluster n) (l : Move n) : Decidable (ownValues es s l) :=
  inferInstanceAs (Decidable (∀ i, ∀ input ∈ Process.inputAt i (s,l),
    BringsArgument (happened i es) (s.nodes i) (countedAt i es) input))

section Unmixed
variable {rank : Fin n} {node node' : Node n} {h : List (Obs (Fin n) Packet (Event n))}
  {counted : List (Fin n × Nat)}

theorem argumentOf_mono (ha : argumentOf c h = some v) (h' : List (Obs (Fin n) Packet (Event n))) :
    argumentOf c (h ++ h') = some v := by
  rw [argumentOf] at ha
  rw [argumentOf, eventsOf_append, List.head?_append, ha]
  rfl

/-- All that has been called as call `c` was called with the same argument. -/
theorem argumentOf_eq (hr : Recorded rank node h) (hm : .did (.called c v pid) ∈ h) :
    argumentOf c h = some v := by
  obtain ⟨x,hx⟩ := hr.consistent c
  have hone : ∀ w ∈ eventsOf (calledWith c) h, w = v := by
    intro w hw
    obtain ⟨e,he,hew⟩ := mem_eventsOf.mp hw
    cases e with
    | called c' value pid' =>
      simp only [calledWith, Option.ite_none_right_eq_some, Option.some.injEq] at hew
      obtain ⟨rfl,rfl⟩ := hew
      exact (hx _ he rfl).trans (hx _ hm rfl).symm
    | _ => contradiction
  have hmem : v ∈ eventsOf (calledWith c) h := mem_eventsOf.mpr ⟨_,hm,if_pos rfl⟩
  rw [argumentOf]
  cases hl : eventsOf (calledWith c) h with
  | nil =>
    rw [hl] at hmem
    contradiction
  | cons w ws =>
    rw [hl] at hone
    rw [List.head?_cons, hone w List.mem_cons_self]

theorem called_of_argument (ha : argumentOf c h = some v) : ∃ pid, .did (.called c v pid) ∈ h := by
  obtain ⟨e,he,hev⟩ := mem_eventsOf.mp (List.mem_of_head? ha)
  cases e with
  | called c' value pid =>
    simp only [calledWith, Option.ite_none_right_eq_some, Option.some.injEq] at hev
    obtain ⟨rfl,rfl⟩ := hev
    exact ⟨pid,he⟩
  | _ => contradiction

/-- A call under way has been called. -/
theorem Recorded.argument (hr : Recorded rank node h)
    (hv : v ∈ counting node.thread) : argumentOf node.calls h = some v := by
  have hcur := hr.current
  generalize he : ofCall rank node.calls h = es at hcur
  have hin : ∀ e ∈ es, .did e ∈ h := fun e hm => mem_of_ofCall (he ▸ hm)
  generalize ht : node.thread = thread at hcur hv
  cases hcur with
  | prepare | promised | propose =>
    cases hv
    exact argumentOf_eq hr (hin _ List.mem_cons_self)
  | _ => cases hv

/-- What a call has to do with has its own argument. -/
structure Unmixed (node : Node n) (h : List (Obs (Fin n) Packet (Event n)))
    (counted : List (Fin n × Nat)) : Prop where
  idle : node.thread = .idle → node.context.roundId = -1 ∧ node.context.maxAcceptedId = -1
  least : -1 ≤ node.context.maxAcceptedId
  reported : node.context.maxAcceptedId = -1 ∨
    ∀ v ∈ collecting node.thread, node.context.acceptedValue = v
  argument : ∀ v ∈ counting node.thread, ∀ a ∈ counted, argumentOf a.2 h = some v
  proposed : ∀ c context w, .did (.proposed c context w) ∈ h → argumentOf c h = some w
  received : ∀ a ∈ counted, ∃ pid roundId, .received a.1 ⟨.accept pid roundId,a.2⟩ ∈ h

/-- Steps that propose nothing and leave the context and the ACCEPTs alone. -/
theorem Unmixed.keep (hu : Unmixed node h counted) (hctx : node'.context = node.context)
    (hidle : node'.thread = .idle → node.thread = .idle)
    (hcounting : ∀ v ∈ counting node'.thread, v ∈ counting node.thread)
    (hcollecting : ∀ v ∈ collecting node'.thread, v ∈ collecting node.thread)
    {h' : List (Obs (Fin n) Packet (Event n))} (hquiet : ∀ c context w, .did (.proposed c context w) ∉ h') :
    Unmixed node' (h ++ h') counted := by
  constructor
  · rw [hctx]
    exact fun ht => hu.idle (hidle ht)
  · rw [hctx]
    exact hu.least
  · rw [hctx]
    exact hu.reported.imp_right (fun hall v hv => hall v (hcollecting v hv))
  · exact fun v hv a ha => argumentOf_mono (hu.argument v (hcounting v hv) a ha) h'
  · intro c context w hm
    rcases List.mem_append.mp hm with hm | hm
    · exact argumentOf_mono (hu.proposed c context w hm) h'
    · exact absurd hm (hquiet c context w)
  · intro a ha
    obtain ⟨pid,roundId,hm⟩ := hu.received a ha
    exact ⟨pid,roundId,List.mem_append_left _ hm⟩

/-- A context that has been reset. -/
theorem Unmixed.reset (hu : Unmixed node h counted) (hctx : node'.context = {})
    {h' : List (Obs (Fin n) Packet (Event n))} (hquiet : ∀ c context w, .did (.proposed c context w) ∉ h') :
    Unmixed node' (h ++ h') [] := by
  refine ⟨?_,?_,.inl ?_,by simp,?_,by simp⟩
  · simp [hctx]
  · simp [hctx]
  · simp [hctx]
  · intro c context w hm
    rcases List.mem_append.mp hm with hm | hm
    · exact argumentOf_mono (hu.proposed c context w hm) h'
    · exact absurd hm (hquiet c context w)

theorem countedAfter_proceed (ht : ∀ b, node.thread ≠ .logWait b) (now : Nat) :
    countedAfter node counted (.act (.proceed now)) = counted := by
  simp only [countedAfter]

theorem countedAfter_returned (ht : node.thread = .logWait b) (now : Nat) :
    countedAfter node counted (.act (.proceed now)) = [] := by
  simp [countedAfter, ht]

theorem acts_unmixed (hu : Unmixed node h counted) (hr : Recorded rank node h)
    (ha : Acts rank node a out) (hb : BringsArgument h node counted (.act a)) :
    Unmixed out.state (h ++ out.trace) (countedAfter node counted (.act a)) := by
  cases ha with
  | called value now ht =>
    obtain ⟨-,hmax⟩ := hu.idle ht
    refine ⟨by simp,hu.least,.inl hmax,?_,?_,?_⟩
    · intro v hv a ha
      cases hv
      exact argumentOf_mono (hb a ha) _
    · intro c context w hm
      rcases List.mem_append.mp hm with hm | hm
      · exact argumentOf_mono (hu.proposed c context w hm) _
      · simp [Outcome.trace] at hm
    · intro a ha
      obtain ⟨pid,roundId,hm⟩ := hu.received a ha
      exact ⟨pid,roundId,List.mem_append_left _ hm⟩
  | proposed value now ht =>
    have hvalue : proposeValue value node.context = value := by
      rw [proposeValue]
      rcases hu.reported with hmax | hsame
      · rw [if_pos hmax]
      · rw [hsame value (by simp [ht, collecting]), ite_self]
    have hcall : argumentOf node.calls h = some value := hr.argument (by simp [ht, counting])
    rw [countedAfter_proceed (by simp [ht])]
    refine ⟨by simp,hu.least,.inr (by simp [collecting]),?_,?_,?_⟩
    · intro v hv a ha
      have hv' : v ∈ counting node.thread := by simpa [ht, counting] using hv
      exact argumentOf_mono (hu.argument v hv' a ha) _
    · intro c context w hm
      rcases List.mem_append.mp hm with hm | hm
      · exact argumentOf_mono (hu.proposed c context w hm) _
      · simp only [Outcome.trace, List.map_cons, List.map_nil, Option.map_none, Option.toList_none,
          List.append_nil, List.mem_singleton, Obs.did.injEq, Event.proposed.injEq] at hm
        obtain ⟨rfl,-,rfl⟩ := hm
        rw [hvalue]
        exact argumentOf_mono hcall _
    · intro a ha
      obtain ⟨pid,roundId,hm⟩ := hu.received a ha
      exact ⟨pid,roundId,List.mem_append_left _ hm⟩
  | promisesSampled value m ht | acceptsSampled value m ht =>
    rw [countedAfter_proceed (by simp [ht])]
    refine hu.keep ?_ ?_ ?_ ?_ ?_
    · rfl
    · dsimp only
      split <;> simp
    · dsimp only
      split <;> simp [ht, counting]
    · dsimp only
      split <;> simp [ht, collecting]
    · simp [Outcome.trace]
  | sentPrepare value m dst rest ht | sentPropose value m dst rest ht
    | sentAccepted value m dst rest ht =>
    rw [countedAfter_proceed (by simp [ht])]
    refine hu.keep ?_ ?_ ?_ ?_ ?_
    · rfl
    · simp
    · simp [ht, counting]
    · simp [ht, collecting]
    · simp [Outcome.trace]
  | appended value ht | announced value now ht | reached value m ht =>
    rw [countedAfter_proceed (by simp [ht])]
    refine hu.keep ?_ ?_ ?_ ?_ ?_
    · rfl
    · simp
    · simp [counting]
    · simp [collecting]
    · simp [Outcome.trace]
  | returned b ht =>
    rw [countedAfter_returned ht]
    exact hu.reset rfl (by simp [Outcome.trace])
  | reset hb => exact hu.reset rfl (by simp [Outcome.trace])

/-- What a PROMISE leaves of the context: the round, and the pair that was reported, unless it
reports a larger one. -/
theorem promise_context (roundId : Int) (accepted : Option (Int × String)) (context : Context)
    (hleast : -1 ≤ context.maxAcceptedId) :
    (handlePromiseMessage roundId accepted context).roundId = context.roundId ∧
    (((handlePromiseMessage roundId accepted context).maxAcceptedId = context.maxAcceptedId ∧
        (handlePromiseMessage roundId accepted context).acceptedValue = context.acceptedValue) ∨
      ∃ acceptedId value, accepted = some (acceptedId,value) ∧ roundId = context.roundId ∧
        acceptedId > context.maxAcceptedId ∧
        (handlePromiseMessage roundId accepted context).maxAcceptedId = acceptedId ∧
        (handlePromiseMessage roundId accepted context).acceptedValue = value) := by
  by_cases hr : roundId = context.roundId
  case neg => simp [handlePromiseMessage, hr]
  cases accepted with
  | none =>
    have hnot : ¬ -1 > context.maxAcceptedId := by omega
    simp [handlePromiseMessage, hr, hnot]
  | some pair =>
    obtain ⟨acceptedId,value⟩ := pair
    by_cases hmore : acceptedId > context.maxAcceptedId
    · simp [handlePromiseMessage, hr, hmore]
    · simp [handlePromiseMessage, hr, hmore]

/-- Handling a message proposes nothing and leaves the thread alone. -/
theorem Unmixed.handle (hu : Unmixed node h counted) (ht : node'.thread = node.thread)
    (hidle : node.thread = .idle → node'.context.roundId = -1 ∧ node'.context.maxAcceptedId = -1)
    (hleast : -1 ≤ node'.context.maxAcceptedId)
    (hreported : node'.context.maxAcceptedId = -1 ∨
      ∀ v ∈ collecting node.thread, node'.context.acceptedValue = v)
    {h' : List (Obs (Fin n) Packet (Event n))}
    (hquiet : ∀ c context w, .did (.proposed c context w) ∉ h')
    (hnew : ∀ a ∈ counted', a ∈ counted ∨
      (∀ v ∈ counting node.thread, argumentOf a.2 h = some v) ∧
      ∃ pid roundId, .received a.1 ⟨.accept pid roundId,a.2⟩ ∈ h') :
    Unmixed node' (h ++ h') counted' := by
  refine ⟨by rwa [ht],hleast,by rwa [ht],?_,?_,?_⟩
  · intro v hv a ha
    rw [ht] at hv
    rcases hnew a ha with ha | ⟨harg,-⟩
    · exact argumentOf_mono (hu.argument v hv a ha) h'
    · exact argumentOf_mono (harg v hv) h'
  · intro c context w hm
    rcases List.mem_append.mp hm with hm | hm
    · exact argumentOf_mono (hu.proposed c context w hm) h'
    · exact absurd hm (hquiet c context w)
  · intro a ha
    rcases hnew a ha with ha | ⟨-,pid,roundId,hm⟩
    · obtain ⟨pid,roundId,hm⟩ := hu.received a ha
      exact ⟨pid,roundId,List.mem_append_left _ hm⟩
    · exact ⟨pid,roundId,List.mem_append_right _ hm⟩

/-- An idle node is in no round that could be promised. -/
theorem handles_unmixed (hu : Unmixed node h counted) (ha : Handles rank node src packet now out)
    (hpos : ∀ pid roundId accepted, packet.message = .promise pid roundId accepted → 0 ≤ roundId)
    (hb : BringsArgument h node counted (.handle src packet now)) :
    Unmixed out.state (h ++ .received src packet::out.trace)
      (countedAfter node counted (.handle src packet now)) := by
  obtain ⟨message,call⟩ := packet
  cases ha with
  | promised id hm hid | refusedPrepare id hm hid | learned id roundId value hm
    | refusedPropose id roundId value hm hid =>
    dsimp only at hm
    subst hm
    refine hu.handle ?_ ?_ ?_ ?_ ?_ ?_
    · rfl
    · exact hu.idle
    · exact hu.least
    · exact hu.reported
    · simp [Outcome.trace]
    · exact fun a ha => .inl ha
  | countedPromise id roundId accepted hm =>
    dsimp only at hm
    subst hm
    have hround := hpos id roundId accepted rfl
    obtain ⟨hsame,hcase⟩ := promise_context roundId accepted node.context hu.least
    refine hu.handle ?_ ?_ ?_ ?_ ?_ ?_
    · rfl
    · intro ht
      obtain ⟨hr,hmax⟩ := hu.idle ht
      refine ⟨hsame.trans hr,?_⟩
      rcases hcase with ⟨hmax',-⟩ | ⟨acceptedId,value,-,hr',-⟩
      · exact hmax'.trans hmax
      · omega
    · have hleast := hu.least
      rcases hcase with ⟨hmax',-⟩ | ⟨acceptedId,value,-,-,hmore,hmax',-⟩ <;> dsimp only <;> omega
    · rcases hcase with ⟨hmax',hvalue⟩ | ⟨acceptedId,value,rfl,hr,hmore,hmax',hvalue⟩
      · dsimp only
        rw [hmax', hvalue]
        exact hu.reported
      · right
        intro v hv
        exact hvalue.trans (hb hr hmore v hv)
    · simp [Outcome.trace]
    · exact fun a ha => .inl ha
  | accepted id roundId value hm hid =>
    dsimp only at hm
    subst hm
    refine hu.handle ?_ ?_ ?_ ?_ ?_ ?_
    · rfl
    · exact hu.idle
    · exact hu.least
    · by_cases hmax : node.context.maxAcceptedId = -1
      · exact .inl hmax
      · exact .inr (hb hid hmax)
    · simp [Outcome.trace]
    · exact fun a ha => .inl ha
  | countedAccept id roundId hm =>
    dsimp only at hm
    subst hm
    refine hu.handle ?_ ?_ ?_ ?_ ?_ ?_
    · rfl
    · exact hu.idle
    · exact hu.least
    · exact hu.reported
    · simp [Outcome.trace]
    · intro a ha
      rcases List.mem_append.mp ha with ha | ha
      · exact .inl ha
      · rw [List.mem_singleton.mp ha]
        exact .inr ⟨hb,id,roundId,List.mem_cons_self⟩

end Unmixed

section Runs
variable {ok : ConsensusTrace n → Cluster n → Move n → Prop} {s : Cluster n}
  {es : ConsensusTrace n}

/-- `countedAt` lists the ACCEPTs that `acceptCount` counts. -/
theorem length_countedAt (hr : (process n).network.traced.Reach ok s es) (i : Fin n) :
    (s.nodes i).context.acceptCount = (countedAt i es).length := by
  refine Process.made_invariant (f := countedAfter) (J := fun node _ counted =>
    node.context.acceptCount = counted.length) ?_ ?_ ?_ hr
  · rfl
  · intro es s up a out _ _ ho ih
    cases acts_of_act ho with
    | returned b ht =>
      rw [countedAfter_returned ht]
      rfl
    | reset => rfl
    | called => exact ih
    | sentPrepare _ _ _ _ ht | promisesSampled _ _ ht | proposed _ _ ht | sentPropose _ _ _ _ ht
      | acceptsSampled _ _ ht | appended _ ht | announced _ _ ht | sentAccepted _ _ _ _ ht
      | reached _ _ ht =>
      rw [countedAfter_proceed (by simp [ht])]
      exact ih
  · intro es s up src now packet rest out _ _ _ _ ho ih
    obtain ⟨message,call⟩ := packet
    cases (handles_of_handle ho).2 with
    | promised _ hm | refusedPrepare _ hm | accepted _ _ _ hm | refusedPropose _ _ _ hm
      | learned _ _ _ hm =>
      dsimp only at hm
      subst hm
      exact ih
    | countedPromise id roundId accepted hm =>
      dsimp only at hm
      subst hm
      have hsame : (handlePromiseMessage roundId accepted (s.nodes i).context).acceptCount =
          (s.nodes i).context.acceptCount := by
        unfold handlePromiseMessage
        split
        · dsimp only
          split <;> rfl
        · rfl
      exact hsame.trans ih
    | countedAccept _ _ hm =>
      dsimp only at hm
      subst hm
      simp [countedAfter, isAccept, handleAcceptMessage, ih]

/-- A PROMISE answers a PREPARE of its receiver. -/
theorem promise_nonneg {ok : Guard n} {es : History n} (hr : Reach ok s es)
    (hm : ⟨.promise pid roundId accepted,c⟩ ∈ s.chan src i) : 0 ≤ roundId := by
  have hsent : .sent i ⟨.promise pid roundId accepted,c⟩ ∈ historyAt src es :=
    mem_sentTo.mp ((Process.fifo hr src i).subset (List.mem_append_right _ hm))
  have hpromised : .did (.promised i c roundId) ∈ historyAt src es :=
    run_sourced (reach_local hr src) hsent
  have hreceived : .received i ⟨.prepare roundId,c⟩ ∈ historyAt src es :=
    run_prompted (reach_local hr src) hpromised
  obtain ⟨v,hcalled⟩ := run_sourced (reach_local hr i) (Process.received_was_sent hr hreceived)
  exact run_called_nonneg (reach_local hr i) hcalled

theorem reach_unmixed (hr : (process n).network.traced.Reach ownValues s es) (i : Fin n) :
    Unmixed (s.nodes i) (happened i es) (countedAt i es) := by
  refine Process.made_invariant (J := Unmixed) ?_ ?_ ?_ hr
  · exact ⟨fun _ => ⟨rfl,rfl⟩,Int.le_refl _,.inl rfl,by simp,by simp,by simp⟩
  · intro es s up a out hr hok ho ih
    have hrecorded := run_recorded (reach_local hr.untraced i)
    exact acts_unmixed ih hrecorded (acts_of_act ho) (hok i _ (by simp [Process.inputAt]))
  · intro es s up src now packet rest out hr hok hc hu ho ih
    refine handles_unmixed ih (handles_of_handle ho).2 ?_ (hok i _ (by simp [Process.inputAt, hu, hc]))
    rintro pid roundId accepted hm
    obtain ⟨message,call⟩ := packet
    dsimp only at hm
    subst hm
    exact promise_nonneg hr.untraced (hc ▸ List.mem_cons_self)

theorem happened_prefix (h : before <+: es) (i : Fin n) :
    ∃ later, happened i es = happened i before ++ later := by
  obtain ⟨after,rfl⟩ := h
  refine ⟨happened i after,?_⟩
  simp only [happened, Machine.history, List.flatMap_append, historyAt_append]

end Runs

/-- In a run in which calls handle nothing but their own argument, every round that passes its
accept check appends and announces the value that it proposed, and that the acceptors it counted
stored. -/
theorem learned_is_accepted {s : Cluster n} {es : ConsensusTrace n}
    (hr : (process n).network.traced.Reach ownValues s es)
    (ha : .did (.acceptsSampled c v true) ∈ happened p es) : LearnedIsAccepted es p c v := by
  have hfree := hr.untraced
  have hunmixed := reach_unmixed hr p
  have hrecorded := run_recorded (reach_local hfree p)
  obtain ⟨x,hx⟩ := hrecorded.consistent c
  have hv : v = x := hx _ ha rfl
  subst x
  have hargument : ∀ w, argumentOf c (happened p es) = some w → w = v := by
    intro w hw
    obtain ⟨pid,hcalled⟩ := called_of_argument hw
    exact hx _ hcalled rfl
  have hselected : ∀ context w, .did (.proposed c context w) ∈ happened p es → w = v :=
    fun context w hm => hargument w (hunmixed.proposed c context w hm)
  refine ⟨hselected,?_,?_,?_,?_⟩
  · intro dst pid roundId w hm
    obtain ⟨context,hproposed,-⟩ := propose_packet_selected hfree hm
    exact hselected context w hproposed
  · intro w hm
    exact hx _ hm (by simp [callOf])
  · intro dst pid roundId w hm
    have hannounced := run_sourced (reach_local hfree p) hm
    exact hx _ hannounced rfl
  · rintro i c' ⟨before,u,up,now,v',m,hbefore,rfl,hthread,hmem⟩
    obtain ⟨hr',-⟩ := hr.taken hbefore
    obtain ⟨later,hlater⟩ := happened_prefix ((List.prefix_append _ _).trans hbefore) p
    have hunmixed' := reach_unmixed hr' p
    have hcounting : v' ∈ counting (u.nodes p).thread := by simp [hthread, counting]
    -- the call that tests is the one that has been told of
    have hv : v' = v := by
      refine hargument v' ?_
      rw [hlater]
      exact argumentOf_mono ((run_recorded (reach_local hr'.untraced p)).argument hcounting) later
    subst v'
    have hcall : argumentOf c' (happened p es) = some v := by
      rw [hlater]
      exact argumentOf_mono (hunmixed'.argument v hcounting (i,c') hmem) later
    have hstored : ∀ roundId w, .did (.accepted p c' roundId w) ∈ happened i es → w = v := by
      intro roundId w hm
      obtain ⟨pid,hsent⟩ := accepted_was_proposed hfree hm
      obtain ⟨context,hproposed,-⟩ := propose_packet_selected hfree hsent
      have hw := hunmixed.proposed c' context w hproposed
      rw [hcall] at hw
      exact (Option.some.inj hw).symm
    refine ⟨?_,hstored⟩
    obtain ⟨pid,roundId,hreceived⟩ := hunmixed'.received (i,c') hmem
    have hsent := Process.received_was_sent hfree
      (show .received i ⟨.accept pid roundId,c'⟩ ∈ happened p es from
        hlater ▸ List.mem_append_left _ hreceived)
    obtain ⟨roundId',w,haccepted⟩ := run_sourced (reach_local hfree i) hsent
    exact ⟨roundId',hstored roundId' w haccepted ▸ haccepted⟩

/-- `p` proposes "a" and gives up with the ACCEPT of `r` still in flight. `q` then calls with
`value`, hears of "a" from `r`, proposes "a", and has it accepted. -/
def takenOver (p q r : Fin n) (value : String) : List (Move n) :=
  [.call p "a" 10,.proceed p 10,.proceed p 10,.deliver p r 10,.deliver r p 10,.proceed p 15,
    .proceed p 15,.proceed p 15,.proceed p 15,.deliver p r 15,.proceed p 20,.proceed p 23,
    .call q value 30,.proceed q 30,.proceed q 30,.deliver q r 30,.deliver r q 30,.proceed q 35,
    .proceed q 35,.proceed q 35,.proceed q 35,.deliver q r 35,.deliver r q 35,.proceed q 40,
    .proceed q 40]

/-- Where a run under a test leads, with its moves. -/
def traceOf (test : ConsensusTrace n → Cluster n → Move n → Bool) (moves : List (Move n))
    (look : Cluster n × ConsensusTrace n → β) : Option β :=
  ((process n).network.traced.follow test moves (process n).network.traced.start []).map look

theorem takenOver_learns : traceOf (n := 3) (fun es s l => decide (ownValues es s l))
    (takenOver 0 1 2 "a") (fun r =>
      (decide (.did (.acceptsSampled 1 "a" true) ∈ happened 1 r.2),
        decide (.received 2 ⟨.promise 30 30 (some (10,"a")),1⟩ ∈ happened 1 r.2),
        countedAt 1 r.2)) = some (true,true,[(2,1)]) := by
  decide

theorem learned_is_accepted_takenOver : ∃ (s : Cluster 3) (es : ConsensusTrace 3),
    (process 3).network.traced.Reach ownValues s es ∧
    .received 2 ⟨.promise 30 30 (some (10,"a")),1⟩ ∈ happened 1 es ∧ countedAt 1 es = [(2,1)] ∧
    LearnedIsAccepted es 1 1 "a" := by
  obtain ⟨s,es,hr,h⟩ := Machine.exists_reach (fun _ _ _ => of_decide_eq_true) takenOver_learns
  simp only [Prod.mk.injEq, decide_eq_true_eq] at h
  exact ⟨s,es,hr,h.2.1,h.2.2,learned_is_accepted hr h.1⟩

theorem takenOver_appends : traceOf (n := 3) (fun _ _ _ => true) (takenOver 0 1 2 "b") (fun r =>
    (decide (.did (.acceptsSampled 1 "b" true) ∈ happened 1 r.2),
      decide (.did (.appended 1 1 "b") ∈ happened 1 r.2),
      decide (.sent 2 ⟨.propose 35 30 "a",1⟩ ∈ happened 1 r.2))) = some (true,true,true) := by
  decide

/-- Move `k` of a run is the test of call `c` of `p`. -/
def testsAt (p : Fin n) (c : Nat) (es : ConsensusTrace n) (k : Nat) : Bool :=
  match es[k]? with
  | some (u,_,.act i (.proceed _)) =>
    match (u.nodes p).thread with
    | .propose _ _ [] => i == p && (u.nodes p).calls == c
    | _ => false
  | _ => false

theorem foundCounted_of_testsAt (h : testsAt p c es k = true) (ha : a ∈ countedAt p (es.take k)) :
    FoundCounted es p c a := by
  simp only [testsAt] at h
  split at h
  · rename_i u up i now hk
    split at h
    · rename_i v m ht
      simp only [Bool.and_eq_true, beq_iff_eq] at h
      obtain ⟨rfl,hc⟩ := h
      refine ⟨es.take k,u,up,now,v,m,?_,hc,ht,ha⟩
      obtain ⟨hlt,hget⟩ := List.getElem?_eq_some_iff.mp hk
      rw [← hget, ← List.take_succ_eq_append_getElem hlt]
      exact List.take_prefix _ _
    · contradiction
  · contradiction

theorem lateAccept_appends : traceOf (n := 3) (fun _ _ _ => true)
    (lateAccept 0 1 ++ [.proceed 0 40]) (fun r =>
    (decide (.did (.acceptsSampled 2 "b" true) ∈ happened 0 r.2),
      decide (.did (.appended 0 2 "b") ∈ happened 0 r.2),
      decide (.did (.accepted 0 1 10 "a") ∈ happened 1 r.2),
      testsAt 0 2 r.2 22 && (countedAt 0 (r.2.take 22)).contains (1,1))) =
        some (true,true,true,true) := by
  decide

/-- Node 1 appends its own "b" after it has got "a" accepted. Node 0 appends "b" after it has
counted the ACCEPT of a node that stored "a". -/
theorem appends_unaccepted_value :
    (∃ (s : Cluster 3) (es : ConsensusTrace 3),
      (process 3).network.traced.Reach Machine.free s es ∧
      .did (.acceptsSampled 1 "b" true) ∈ happened 1 es ∧
      .did (.appended 1 1 "b") ∈ happened 1 es ∧ ¬ LearnedIsAccepted es 1 1 "b") ∧
    (∃ (s : Cluster 3) (es : ConsensusTrace 3),
      (process 3).network.traced.Reach Machine.free s es ∧
      .did (.acceptsSampled 2 "b" true) ∈ happened 0 es ∧
      .did (.appended 0 2 "b") ∈ happened 0 es ∧ ¬ LearnedIsAccepted es 0 2 "b") := by
  constructor
  · obtain ⟨s,es,hr,h⟩ := Machine.exists_reach (fun _ _ _ _ => trivial) takenOver_appends
    simp only [Prod.mk.injEq, decide_eq_true_eq] at h
    refine ⟨s,es,hr,h.1,h.2.1,?_⟩
    intro hl
    exact absurd (hl.proposed _ _ _ _ h.2.2) (by decide)
  · obtain ⟨s,es,hr,h⟩ := Machine.exists_reach (fun _ _ _ _ => trivial) lateAccept_appends
    simp only [Prod.mk.injEq, decide_eq_true_eq, Bool.and_eq_true] at h
    obtain ⟨hsampled,happended,haccepted,htests,hcounted⟩ := h
    refine ⟨s,es,hr,hsampled,happended,?_⟩
    intro hl
    have hfound : FoundCounted es 0 2 (1,1) := foundCounted_of_testsAt htests
      (List.contains_iff_mem.mp hcounted)
    exact absurd ((hl.stored 1 1 hfound).2 _ _ haccepted) (by decide)

end Algorep.Proofs
