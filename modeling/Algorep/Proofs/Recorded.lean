import Algorep.Proofs.ConsensusSteps

namespace Algorep.Proofs
open Kit Program Program.Consensus

/-- The number of the node's own call an event belongs to, for the events of its
client thread. -/
def callOf (rank : Fin n) : Event n → Option Nat
  | .called c _ _ | .promisesSampled c _ | .proposed c _ _ | .acceptsSampled c _ _
  | .announced c _ | .returned c _ => some c
  | .appended src c _ => if src = rank then some c else none
  | .promised _ _ _ | .accepted _ _ _ _ => none

/-- What one call has done so far, in order. -/
def ofCall (rank : Fin n) (c : Nat) (h : List (Obs (Fin n) Packet (Event n))) : List (Event n) :=
  h.filterMap (fun o => match o with
    | .did e => if callOf rank e = some c then some e else none
    | _ => none)

@[simp] theorem ofCall_append (rank : Fin n) (c : Nat) (h h' : List (Obs (Fin n) Packet (Event n))) :
    ofCall rank c (h ++ h') = ofCall rank c h ++ ofCall rank c h' :=
  List.filterMap_append

theorem mem_of_ofCall (h : e ∈ ofCall rank c es) : .did e ∈ es := by
  obtain ⟨o,ho,he⟩ := List.mem_filterMap.mp h
  cases o with
  | did x =>
    simp only [Option.ite_none_right_eq_some, Option.some.injEq] at he
    exact he.2 ▸ ho
  | sent _ _ | received _ _ => contradiction

theorem mem_ofCall (h : .did e ∈ es) (hc : callOf rank e = some c) : e ∈ ofCall rank c es :=
  List.mem_filterMap.mpr ⟨_,h,by simp [hc]⟩

/-- The script of a call: the state of the client thread determines which events
the call has left behind, which message a broadcast carries, and that the nodes
still to be sent to are the last of the others. -/
inductive Told (rank : Fin n) : Nat → Thread n → List (Event n) → Prop
  | never (hc : c = 0) : Told rank c .idle []
  | prepare (hs : rest <:+ others rank) :
      Told rank c (.prepare v (.prepare pid) rest) [.called c v pid]
  | unpromised : Told rank c (.logWait false) [.called c v pid,.promisesSampled c false]
  | promised : Told rank c (.majorityPromised v) [.called c v pid,.promisesSampled c true]
  | propose (context : Context) (hs : rest <:+ others rank) :
      Told rank c (.propose v (.propose mid context.roundId (proposeValue v context)) rest)
        [.called c v pid,.promisesSampled c true,.proposed c context (proposeValue v context)]
  | unaccepted (context : Context) : Told rank c (.logWait false)
      [.called c v pid,.promisesSampled c true,.proposed c context (proposeValue v context),
        .acceptsSampled c v false]
  | accepted (context : Context) : Told rank c (.majorityAccepted v)
      [.called c v pid,.promisesSampled c true,.proposed c context (proposeValue v context),
        .acceptsSampled c v true]
  | written (context : Context) : Told rank c (.logWritten v)
      [.called c v pid,.promisesSampled c true,.proposed c context (proposeValue v context),
        .acceptsSampled c v true,.appended rank c v]
  | announced (context : Context) (hs : rest <:+ others rank) :
      Told rank c (.accepted v (.accepted mid roundId v) rest)
      [.called c v pid,.promisesSampled c true,.proposed c context (proposeValue v context),
        .acceptsSampled c v true,.appended rank c v,.announced c v]
  | reached (context : Context) : Told rank c (.logWait true)
      [.called c v pid,.promisesSampled c true,.proposed c context (proposeValue v context),
        .acceptsSampled c v true,.appended rank c v,.announced c v]
  | returned (h : Told rank c (.logWait b) es) : Told rank c .idle (es ++ [.returned c b])

/-- The history of a node tells the story of each of its calls. -/
structure Recorded (rank : Fin n) (node : Node n) (h : List (Obs (Fin n) Packet (Event n))) :
    Prop where
  current : Told rank node.calls node.thread (ofCall rank node.calls h)
  past : ∀ c < node.calls, Told rank c .idle (ofCall rank c h)
  future : ∀ c, node.calls < c → ofCall rank c h = []

/-- An input that leaves the client thread alone leaves no event of it. -/
theorem Recorded.keep (hs : Recorded rank node h) (hn : ∀ c, ofCall rank c h' = [])
    (ht : node'.thread = node.thread) (hc : node'.calls = node.calls) :
    Recorded rank node' (h ++ h') := by
  refine ⟨?_,?_,?_⟩
  · simpa [ht, hc, hn] using hs.current
  · intro c hlt
    simpa [hn] using hs.past c (by omega)
  · intro c hlt
    simpa [hn] using hs.future c (by omega)

theorem trace_ofCall (rank : Fin n) (c : Nat) (out : Result n) :
    ofCall rank c out.trace = out.events.filter (fun e => callOf rank e = some c) := by
  simp only [ofCall, Outcome.trace, List.filterMap_append, List.filterMap_map]
  have hf : (fun e => if callOf rank e = some c then some e else none) =
      Option.guard (fun e => decide (callOf rank e = some c)) := by
    funext e
    simp [Option.guard]
  cases out.send <;> simp [hf]

/-- A step of the client thread within a call tells the next lines of its story. -/
theorem Recorded.tell {out : Result n} (hs : Recorded rank node h)
    (he : ∀ e ∈ out.events, callOf rank e = some node.calls)
    (hc : out.state.calls = node.calls)
    (ht : Told rank node.calls out.state.thread (ofCall rank node.calls h ++ out.events)) :
    Recorded rank out.state (h ++ out.trace) := by
  have hown : ofCall rank node.calls out.trace = out.events := by
    rw [trace_ofCall]
    exact List.filter_eq_self.mpr (fun e hm => by simp [he e hm])
  have hother : ∀ c, c ≠ node.calls → ofCall rank c out.trace = [] := by
    intro c hne
    rw [trace_ofCall]
    exact List.filter_eq_nil_iff.mpr (fun e hm => by simp [he e hm, hne.symm])
  refine ⟨?_,?_,?_⟩
  · rw [hc, ofCall_append, hown]
    exact ht
  · intro c hlt
    rw [ofCall_append, hother c (by omega), List.append_nil]
    exact hs.past c (by omega)
  · intro c hlt
    rw [ofCall_append, hother c (by omega), List.append_nil]
    exact hs.future c (by omega)

/-- A new call starts a story of its own. -/
theorem called_recorded {out : Result n} (hs : Recorded rank node h) (ht : node.thread = .idle)
    (he : out.events = [.called (node.calls + 1) value pid])
    (hc : out.state.calls = node.calls + 1)
    (hth : out.state.thread = .prepare value (.prepare pid) (others rank)) :
    Recorded rank out.state (h ++ out.trace) := by
  have hnew : ∀ c, ofCall rank c out.trace =
      if c = node.calls + 1 then [.called (node.calls + 1) value pid] else [] := by
    intro c
    rw [trace_ofCall, he]
    by_cases h : c = node.calls + 1
    · simp [callOf, h]
    · simp [callOf, h, Ne.symm h]
  refine ⟨?_,?_,?_⟩
  · rw [ofCall_append, hnew, hc, hth, hs.future _ (by omega)]
    simpa using .prepare (List.suffix_refl _)
  · intro c hlt
    rw [ofCall_append, hnew, if_neg (by omega), List.append_nil]
    rcases Nat.lt_or_ge c node.calls with hlt' | hge
    · exact hs.past c hlt'
    · have hcur := hs.current
      rw [ht] at hcur
      rwa [show c = node.calls by omega]
  · intro c hlt
    rw [ofCall_append, hnew, if_neg (by omega), List.append_nil]
    exact hs.future c (by omega)

theorem acts_recorded {rank : Fin n} (hs : Recorded rank node h) (ha : Acts rank node a out) :
    Recorded rank out.state (h ++ out.trace) := by
  have hcur := hs.current
  generalize he : ofCall rank node.calls h = es at hcur
  cases ha with
  | called value now ht => exact called_recorded hs ht rfl rfl rfl
  | reset hb => exact hs.keep (by intro c; rfl) rfl rfl
  | sentPrepare value m dst rest ht =>
    rw [ht] at hcur
    cases hcur with
    | prepare hsuf =>
      refine hs.tell (by simp) rfl ?_
      rw [he]
      exact .prepare (List.IsSuffix.trans (List.suffix_cons _ _) hsuf)
  | promisesSampled value m ht =>
    rw [ht] at hcur
    cases hcur with
    | prepare hsuf =>
      refine hs.tell (by simp [callOf]) rfl ?_
      rw [he]
      cases hp : receivePromises n node.context with
      | true => exact .promised
      | false => exact .unpromised
  | proposed value now ht =>
    rw [ht] at hcur
    cases hcur with
    | promised =>
      refine hs.tell (by simp [callOf]) rfl ?_
      rw [he]
      exact .propose node.context (List.suffix_refl _)
  | sentPropose value m dst rest ht =>
    rw [ht] at hcur
    cases hcur with
    | propose context hsuf =>
      refine hs.tell (by simp) rfl ?_
      rw [he]
      exact .propose context (List.IsSuffix.trans (List.suffix_cons _ _) hsuf)
  | acceptsSampled value m ht =>
    rw [ht] at hcur
    cases hcur with
    | propose context hsuf =>
      refine hs.tell (by simp [callOf]) rfl ?_
      rw [he]
      cases hp : receiveAccepts n node.context with
      | true => exact .accepted context
      | false => exact .unaccepted context
  | appended value ht =>
    rw [ht] at hcur
    cases hcur with
    | accepted context =>
      refine hs.tell (by simp [callOf]) rfl ?_
      rw [he]
      exact .written context
  | announced value now ht =>
    rw [ht] at hcur
    cases hcur with
    | written context =>
      refine hs.tell (by simp [callOf]) rfl ?_
      rw [he]
      exact .announced context (List.suffix_refl _)
  | sentAccepted value m dst rest ht =>
    rw [ht] at hcur
    cases hcur with
    | announced context hsuf =>
      refine hs.tell (by simp) rfl ?_
      rw [he]
      exact .announced context (List.IsSuffix.trans (List.suffix_cons _ _) hsuf)
  | reached value m ht =>
    rw [ht] at hcur
    cases hcur with
    | announced context hsuf =>
      refine hs.tell (by simp) rfl ?_
      rw [he]
      exact .reached context
  | returned b ht =>
    rw [ht] at hcur
    refine hs.tell (by simp [callOf]) rfl ?_
    rw [he]
    exact .returned hcur

theorem handles_recorded (hs : Recorded rank node h) (hsrc : src ≠ rank)
    (ha : Handles rank node src packet now out) :
    Recorded rank out.state (h ++ .received src packet::out.trace) := by
  cases ha with
  | learned pid roundId value hm =>
    exact hs.keep (by intro c; simp [ofCall, Outcome.trace, callOf, hsrc]) rfl rfl
  | _ => exact hs.keep (by intro c; rfl) rfl rfl

/-- A broadcast leaves its sender out. -/
theorem acts_send_others {rank : Fin n} (ht : Told rank c node.thread es)
    (ha : Acts rank node a out) (hs : out.send = some (dst,m)) : dst ≠ rank := by
  cases ha with
  | sentPrepare value m dst rest he | sentPropose value m dst rest he
  | sentAccepted value m dst rest he =>
    rw [he] at ht
    cases hs
    cases ht
    all_goals
      rename_i hsuf
      exact mem_others.mp (hsuf.subset List.mem_cons_self)
  | _ => cases hs

/-- The messages that answer another one. -/
def isReply : Message → Bool
  | .promise _ _ _ | .accept _ _ => true
  | _ => false

/-- A broadcast carries no reply. -/
theorem acts_send_no_reply {rank : Fin n} (ht : Told rank c node.thread es)
    (ha : Acts rank node a out) (hs : out.send = some (dst,packet)) :
    isReply packet.message = false := by
  cases ha with
  | sentPrepare value m dst rest he | sentPropose value m dst rest he
  | sentAccepted value m dst rest he =>
    rw [he] at ht
    cases hs
    cases ht
    all_goals rfl
  | _ => cases hs

theorem handles_send_src {rank : Fin n} (ha : Handles rank node src packet now out)
    (hs : out.send = some (dst,m)) : dst = src := by
  cases ha with
  | promised | accepted => cases hs; rfl
  | _ => cases hs

/-- Nobody sends to itself, and every node's history tells the story of its calls. -/
theorem reach_recorded {ok : Guard n} (hr : Reach ok s es) :
    (∀ i, s.chan i i = []) ∧ ∀ i, Recorded i (s.nodes i) (historyAt i es) := by
  induction hr with
  | start =>
    exact ⟨fun _ => rfl,fun i => ⟨.never rfl,fun c hlt => absurd hlt (Nat.not_lt_zero c),
      fun _ _ => rfl⟩⟩
  | @step s es l t e _ _ hs ih =>
    obtain ⟨hself,hrec⟩ := ih
    obtain ⟨up,l⟩ := l
    cases Process.step_iff.mp hs with
    | act i a out ho =>
      have ha := acts_of_act ho
      constructor
      · intro j
        rw [Net.commit_chan, hself, List.nil_append]
        split
        · rename_i hj
          obtain ⟨rfl,_⟩ := hj
          rw [sentTo_trace]
          cases hsend : out.send with
          | none => rfl
          | some p => simp [acts_send_others (hrec j).current ha hsend]
        · rfl
      · intro j
        rw [historyAt_append, historyAt_tag]
        by_cases hj : i = j
        · subst hj
          simpa using acts_recorded (hrec i) ha
        · simpa [hj, Net.commit_other _ _ _ (Ne.symm hj)] using hrec j
    | handle src dst o m rest out hc hu ho =>
      have ha := (handles_of_handle ho).2
      have hne : src ≠ dst := by
        intro he
        subst he
        simp [hself] at hc
      constructor
      · intro j
        rw [Net.commit_chan, Net.setChan_chan, if_neg (by rintro ⟨rfl,h⟩; exact hne h),
          hself, List.nil_append]
        split
        · rename_i hj
          obtain ⟨rfl,_⟩ := hj
          rw [sentTo_trace]
          cases hsend : out.send with
          | none => rfl
          | some p => simp [handles_send_src ha hsend, hne]
        · rfl
      · intro j
        rw [historyAt_append, historyAt_cons, historyAt_tag]
        by_cases hj : dst = j
        · subst hj
          simpa using handles_recorded (hrec dst) hne ha
        · simpa [hj, Net.commit_other _ _ _ (Ne.symm hj)] using hrec j
    | discard src dst o m rest hc hu =>
      constructor
      · intro j
        rw [Net.setChan_chan, if_neg, hself]
        rintro ⟨rfl,rfl⟩
        simp [hself] at hc
      · intro j
        simpa using hrec j

/-- A node never receives from itself. -/
def Foreign (rank : Fin n) (_ : Node n) : Input (Fin n) Action Nat Packet → Prop
  | .act _ => True
  | .handle src _ _ => src ≠ rank

/-- What the guard of a run keeps from one node, it keeps from the node's own run. -/
theorem reach_guarded {ok : Guard n} (hlok : Process.Respects ok i lok) (hr : Reach ok s es) :
    LocalRun (process n) (fun s x => Foreign i s x ∧ lok s x) i (s.nodes i) (historyAt i es) := by
  refine Process.local_run ⟨?_,?_⟩
    (hr.strengthen (J := fun s _ => ∀ i, s.chan i i = []) (fun _ _ h => (reach_recorded h).1))
  · intro es s up a hok
    exact ⟨trivial,hlok.1 es s up a hok.1⟩
  · intro es s up src o m rest hok hc hu
    refine ⟨?_,hlok.2 es s up src o m rest hok.1 hc hu⟩
    rintro rfl
    simp [hok.2] at hc

theorem reach_local {ok : Guard n} (hr : Reach ok s es) (i : Fin n) :
    LocalRun (process n) (Foreign i) i (s.nodes i) (historyAt i es) :=
  (reach_guarded (⟨fun _ _ _ _ _ => trivial,fun _ _ _ _ _ _ _ _ _ _ => trivial⟩ :
    Process.Respects ok i anyInput) hr).mono (fun _ _ h => h.1)

end Algorep.Proofs
