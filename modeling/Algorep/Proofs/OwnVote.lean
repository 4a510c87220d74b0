import Algorep.Proofs.AcceptorMemory
import Algorep.Proofs.CountedPromises

namespace Algorep.Proofs
open Kit Program Program.Consensus

def hear (x : Int × List Int) : Obs (Fin n) Packet (Event n) → Int × List Int
  | .did (.called _ _ id) => (id,[])
  | .received _ ⟨.promise _ roundId (some (acceptedId,_)),_⟩ =>
    if roundId = x.1 then (x.1,acceptedId::x.2) else x
  | _ => x

/-- The round of a node's last call, and the accepted ids that PROMISEs of that round
have reported to it. -/
def heardPromises (h : List (Obs (Fin n) Packet (Event n))) : Int × List Int :=
  h.foldl hear (-1,[])

/-- A node binds itself to no round below one of its own PREPAREs. -/
def AboveOwn (o : Obs (Fin n) Packet (Event n)) (before : List (Obs (Fin n) Packet (Event n))) :
    Prop :=
  match o with
  | .did (.promised _ _ roundId) | .did (.accepted _ _ roundId _) =>
    ∀ r ∈ calledIds before, r ≤ roundId
  | _ => True

/-- A proposer that has accepted above everything reported to it proposes what it has
accepted. -/
def ProposesOwn (o : Obs (Fin n) Packet (Event n)) (before : List (Obs (Fin n) Packet (Event n))) :
    Prop :=
  match o with
  | .did (.proposed _ context w) => context.valueAccepted = true →
    (∀ a ∈ (heardPromises before).2, a < context.acceptedId) → ∃ r, lastAccepted before = some (r,w)
  | _ => True

/-- The round a node would bind itself to. -/
def binds (maxRoundId : Int) : Message → Option Int
  | .prepare id => if id > maxRoundId then some id else none
  | .propose _ roundId _ => if roundId = maxRoundId then some roundId else none
  | _ => none

/-- The accepted id a PROMISE reports. -/
def reportedId : Message → Int
  | .promise _ _ accepted => (accepted.map Prod.fst).getD (-1)
  | _ => -1

/-- With nothing reported, a node that has accepted a value proposes no other one, and
it takes none over that was accepted below its own. -/
def KeepsVote (s : Node n) : Input (Fin n) Action Nat Packet → Prop
  | .act (.proceed _) => ∀ v, s.thread = .majorityPromised v → s.context.valueAccepted = true →
    s.context.maxAcceptedId = -1 → v = s.context.acceptedValue
  | .act _ => True
  | .handle _ packet _ => takesOver packet.message s.context = true →
    s.context.valueAccepted = true → reportedId packet.message < s.context.acceptedId →
    reportedValue packet.message = s.context.acceptedValue

/-- How the proposer's fields stand to what was heard, and the acceptor's to what was
accepted. -/
structure Votes (s : Node n) (h : List (Obs (Fin n) Packet (Event n))) : Prop where
  idle : s.thread = .idle → s.context.roundId = -1 ∧ s.context.maxAcceptedId = -1
  round : s.context.roundId = -1 ∨ s.context.roundId = (heardPromises h).1
  known : s.context.maxAcceptedId = -1 ∨ s.context.maxAcceptedId ∈ (heardPromises h).2
  low : -1 ≤ s.context.maxAcceptedId
  own : s.context.valueAccepted = true → ∃ v,
    lastAccepted h = some (s.context.acceptedId,v) ∧ (s.context.acceptedValue = v ∨
      s.context.maxAcceptedId ≠ -1 ∧ s.context.acceptedId ≤ s.context.maxAcceptedId)
  proposes : Preceded ProposesOwn h

theorem heardPromises_append (h h' : List (Obs (Fin n) Packet (Event n))) :
    heardPromises (h ++ h') = h'.foldl hear (heardPromises h) :=
  List.foldl_append

/-- A step of the node that is no call changes nothing of what was heard. -/
theorem heardPromises_trace {out : Result n} (hc : ∀ c v r, .called c v r ∉ out.events) :
    heardPromises (h ++ out.trace) = heardPromises h := by
  rw [heardPromises_append]
  generalize heardPromises h = x
  have hquiet : ∀ o ∈ out.trace, hear x o = x := by
    intro o ho
    rcases mem_trace.mp ho with ⟨e,he,rfl⟩ | ⟨dst,packet,-,rfl⟩
    · cases e with
      | called c v r => exact absurd he (hc c v r)
      | _ => rfl
    · rfl
  generalize out.trace = t at hquiet
  induction t with
  | nil => rfl
  | cons o t ih =>
    rw [List.foldl_cons, hquiet o List.mem_cons_self]
    exact ih (fun o ho => hquiet o (List.mem_cons_of_mem _ ho))

/-- A step that leaves all but the accept count of the context as it is. -/
theorem Votes.keep {s s' : Node n} {h h' : List (Obs (Fin n) Packet (Event n))} (hs : Votes s h)
    (hc : s'.context = { s.context with acceptCount := k })
    (ht : s'.thread = .idle → s.thread = .idle) (hh : heardPromises (h ++ h') = heardPromises h)
    (hl : lastAccepted (h ++ h') = lastAccepted h) (hp : Preceded ProposesOwn (h ++ h')) :
    Votes s' (h ++ h') := by
  refine ⟨?_,?_,?_,?_,?_,hp⟩
  · intro hi
    rw [hc]
    exact hs.idle (ht hi)
  · rw [hc, hh]
    exact hs.round
  · rw [hc, hh]
    exact hs.known
  · rw [hc]
    exact hs.low
  · rw [hc, hl]
    exact hs.own

theorem Votes.wiped {s' : Node n} {h' : List (Obs (Fin n) Packet (Event n))}
    (hc : s'.context = {}) (hp : Preceded ProposesOwn (h ++ h')) : Votes s' (h ++ h') := by
  refine ⟨?_,?_,?_,?_,?_,hp⟩
  all_goals simp [hc]

theorem acts_votes {s : Node n} (hs : Votes s h) (hok : KeepsVote s (.act a))
    (ha : Acts rank s a out) : Votes out.state (h ++ out.trace) := by
  have hl : lastAccepted (h ++ out.trace) = lastAccepted h := by
    refine latest_quiet _ ?_
    intro o ho
    rcases mem_trace.mp ho with ⟨e,he,rfl⟩ | ⟨dst,packet,-,rfl⟩
    · cases ha
      all_goals simp only [List.mem_cons, List.not_mem_nil, or_false] at he
      all_goals subst e; rfl
    · rfl
  have hfree : (∀ c context w, .proposed c context w ∉ out.events) →
      Preceded ProposesOwn (h ++ out.trace) := by
    intro hn
    refine hs.proposes.append_free ?_
    intro o ho before
    rcases mem_trace.mp ho with ⟨e,he,rfl⟩ | ⟨dst,packet,-,rfl⟩
    · cases e with
      | proposed c context w => exact absurd he (hn c context w)
      | _ => trivial
    · trivial
  have hend := acts_idle ha
  cases ha with
  | called value now ht =>
    obtain ⟨hround,hmax⟩ := hs.idle ht
    refine ⟨by simp,.inr ?_,.inl hmax,hs.low,hl ▸ hs.own,hfree (by simp)⟩
    simp [heardPromises_append, Outcome.trace, hear]
  | proposed value now ht =>
    refine hs.keep rfl (by simp) (heardPromises_trace (by simp)) hl ?_
    refine hs.proposes.snoc ?_
    intro hacc habove
    obtain ⟨v,hlast,hvalue⟩ := hs.own hacc
    -- the largest reported id, if there is one, was heard
    have hown : s.context.acceptedValue = v := by
      refine hvalue.resolve_right ?_
      rintro ⟨hne,hle⟩
      have hlt := habove _ (hs.known.resolve_left hne)
      omega
    by_cases hnone : s.context.maxAcceptedId = -1
    · have harg : value = s.context.acceptedValue := hok value ht hacc hnone
      exact ⟨_,by rw [hlast, proposeValue, if_pos hnone, harg, hown]⟩
    · exact ⟨_,by rw [hlast, proposeValue, if_neg hnone, hown]⟩
  | returned b ht => exact .wiped rfl (hfree (by simp))
  | reset hb => exact .wiped rfl (hfree (by simp))
  | promisesSampled value m ht | acceptsSampled value m ht =>
    refine hs.keep rfl ?_ (heardPromises_trace (by simp)) hl (hfree (by simp))
    intro hidle
    exact absurd (hend hidle) (by simp [ht])
  | _ => exact hs.keep rfl (by simp) (heardPromises_trace (by simp)) hl (hfree (by simp))

/-- `handlePromiseMessage` on the field a takeover raises. -/
theorem handlePromise_max (id roundId : Int) (accepted : Option (Int × String))
    (context : Context) : (handlePromiseMessage roundId accepted context).maxAcceptedId =
      if takesOver (.promise id roundId accepted) context then
        reportedId (.promise id roundId accepted)
      else context.maxAcceptedId := by
  by_cases hr : roundId = context.roundId
  · by_cases ha : context.maxAcceptedId < (accepted.map Prod.fst).getD (-1) <;>
      simp [handlePromiseMessage, takesOver, reportedId, hr, ha]
  · simp [handlePromiseMessage, takesOver, hr]

theorem hear_promise_fst (x : Int × List Int) (src : Fin n) (c : Nat) :
    (hear x (.received src ⟨.promise pid roundId accepted,c⟩)).1 = x.1 := by
  cases accepted with
  | none => rfl
  | some p =>
    simp only [hear]
    split <;> rfl

theorem hear_promise_mono (src : Fin n) (c : Nat) (hm : a ∈ x.2) :
    a ∈ (hear x (.received src ⟨.promise pid roundId accepted,c⟩)).2 := by
  cases accepted with
  | none => exact hm
  | some p =>
    simp only [hear]
    split
    · exact List.mem_cons_of_mem _ hm
    · exact hm

/-- What is taken over is above the maximum so far, and has been heard. -/
theorem Votes.raised {s : Node n} (hs : Votes s h) (hblank : roundId ≠ -1)
    (ht : takesOver (.promise pid roundId accepted) s.context = true) (src : Fin n) (c : Nat) :
    s.context.maxAcceptedId < reportedId (.promise pid roundId accepted) ∧
    reportedId (.promise pid roundId accepted) ∈
      (hear (heardPromises h) (.received src ⟨.promise pid roundId accepted,c⟩)).2 := by
  simp only [takesOver, Bool.and_eq_true, beq_iff_eq, decide_eq_true_eq] at ht
  refine ⟨ht.2,?_⟩
  cases accepted with
  | none =>
    have hlow := hs.low
    simp only [Option.map_none, Option.getD_none] at ht
    omega
  | some p =>
    have hown : roundId = (heardPromises h).1 :=
      ht.1.trans (hs.round.resolve_left (ht.1 ▸ hblank))
    simp [hear, hown, reportedId]

/-- A promise of the node's own round, with the invariant for what it reports. -/
theorem Votes.promised {s : Node n} (hs : Votes s h) (hblank : roundId ≠ -1)
    (hok : KeepsVote s (.handle src ⟨.promise pid roundId accepted,c⟩ now)) :
    Votes { s with context := handlePromiseMessage roundId accepted s.context }
      (h ++ [.received src ⟨.promise pid roundId accepted,c⟩]) := by
  have hmax := handlePromise_max pid roundId accepted s.context
  have hround := handlePromise_roundId roundId accepted s.context
  obtain ⟨hv,hi,hvalue⟩ := handlePromise_memory pid roundId accepted s.context
  have hl : lastAccepted (h ++ [.received src ⟨.promise pid roundId accepted,c⟩]) =
      lastAccepted h := latest_quiet _ (by simp [acceptance])
  have hheard : heardPromises (h ++ [.received src ⟨.promise pid roundId accepted,c⟩]) =
      hear (heardPromises h) (.received src ⟨.promise pid roundId accepted,c⟩) := by
    rw [heardPromises_append, List.foldl_cons, List.foldl_nil]
  refine ⟨?_,?_,?_,?_,?_,hs.proposes.snoc trivial⟩
  · intro hidle
    obtain ⟨hr,hm⟩ := hs.idle hidle
    have hnot : takesOver (.promise pid roundId accepted) s.context = false := by
      simp [takesOver, hr, hblank]
    simp [hmax, hnot, hr, hm]
  · dsimp only
    rw [hround, hheard, hear_promise_fst]
    exact hs.round
  · dsimp only
    rw [hmax, hheard]
    split
    · rename_i ht
      exact .inr (hs.raised hblank ht src c).2
    · exact hs.known.imp_right (hear_promise_mono src c)
  · have hlow := hs.low
    dsimp only
    rw [hmax]
    split
    · rename_i ht
      have hlt := (hs.raised hblank ht src c).1
      omega
    · exact hlow
  · intro hacc
    dsimp only at hacc ⊢
    rw [hv] at hacc
    obtain ⟨v,hlast,hown⟩ := hs.own hacc
    refine ⟨v,by rw [hl, hi, hlast],?_⟩
    rw [hvalue, hmax, hi]
    split
    · rename_i ht
      have hlow := hs.low
      have hlt := (hs.raised hblank ht src c).1
      by_cases hle : s.context.acceptedId ≤ reportedId (.promise pid roundId accepted)
      · exact .inr ⟨by omega,hle⟩
      · have hvote := hok ht hacc (by dsimp only; omega)
        have hkept : s.context.acceptedValue = v := hown.resolve_right (fun hr => by omega)
        exact .inl (hvote.trans hkept)
    · exact hown

theorem handles_votes {rank : Fin n} (hs : Votes s h)
    (hok : KeepsVote s (.handle src packet now))
    (hblank : promiseOf (-1) packet = false) (ha : Handles rank s src packet now out) :
    Votes out.state (h ++ .received src packet::out.trace) := by
  obtain ⟨message,call⟩ := packet
  have hheard : (∀ pid roundId accepted, message ≠ .promise pid roundId accepted) →
      (∀ c v r, .called c v r ∉ out.events) →
      heardPromises (h ++ .received src ⟨message,call⟩::out.trace) = heardPromises h := by
    intro hm hn
    have hsplit : h ++ .received src ⟨message,call⟩::out.trace =
        h ++ [.received src ⟨message,call⟩] ++ out.trace := by simp
    rw [hsplit, heardPromises_trace hn, heardPromises_append]
    cases message with
    | promise pid roundId accepted => exact absurd rfl (hm pid roundId accepted)
    | _ => rfl
  have hfree : (∀ c context w, .proposed c context w ∉ out.events) →
      Preceded ProposesOwn (h ++ .received src ⟨message,call⟩::out.trace) := by
    intro hn
    refine hs.proposes.append_free ?_
    intro o ho before
    rcases List.mem_cons.mp ho with rfl | ho
    · trivial
    · rcases mem_trace.mp ho with ⟨e,he,rfl⟩ | ⟨dst,packet,-,rfl⟩
      · cases e with
        | proposed c context w => exact absurd he (hn c context w)
        | _ => trivial
      · trivial
  cases ha with
  | countedPromise pid roundId accepted hm =>
    dsimp only at hm
    subst hm
    exact hs.promised (by simpa [promiseOf] using hblank) hok
  | accepted pid roundId value hm hid =>
    dsimp only at hm
    subst hm
    have hh := hheard (by simp) (by simp)
    refine ⟨hs.idle,?_,?_,hs.low,?_,hfree (by simp)⟩
    · rw [hh]
      exact hs.round
    · rw [hh]
      exact hs.known
    · intro _
      exact ⟨value,by simp [lastAccepted, latest_append, Outcome.trace, acceptance],.inl rfl⟩
  | promised pid hm hid | refusedPrepare pid hm hid | refusedPropose pid roundId value hm hid
  | countedAccept pid roundId hm | learned pid roundId value hm =>
    dsimp only at hm
    subst hm
    refine hs.keep rfl (by simp) (hheard (by simp) (by simp)) ?_ (hfree (by simp))
    exact latest_quiet _ (by simp [Outcome.trace, acceptance])

theorem run_votes
    (hr : LocalRun (process n) (fun s x => Foreign i s x ∧ KeepsVote s x) i s h)
    (hblank : sendersOf (promiseOf (-1)) h = []) : Votes s h := by
  induction hr with
  | start => exact ⟨fun _ => ⟨rfl,rfl⟩,.inl rfl,.inl rfl,Int.le_refl _,by simp [process],.nil⟩
  | act _ hok ho ih =>
    rw [sendersOf_append, List.append_eq_nil_iff] at hblank
    exact acts_votes (ih hblank.1) hok.2 (acts_of_act ho)
  | handle _ hok ho ih =>
    rw [sendersOf_append, sendersOf_received, List.append_eq_nil_iff,
      List.append_eq_nil_iff] at hblank
    refine handles_votes (ih hblank.1) hok.2 ?_ (handles_of_handle ho).2
    simpa using hblank.2.1

/-- A node that has broadcast PREPAREs handles no PREPARE or PROPOSE that would bind it
below one of them; with nothing reported to it, it proposes no value other than one
it has accepted, and it takes none over that was accepted below its own. -/
def honoursVote (es : History n) (s : Cluster n) (l : Move n) : Bool :=
  match l.2 with
  | .act i (.proceed _) =>
    match (s.nodes i).thread with
    | .majorityPromised value => !(s.nodes i).context.valueAccepted ||
      (s.nodes i).context.maxAcceptedId != -1 || value == (s.nodes i).context.acceptedValue
    | _ => true
  | .deliver src dst _ => !l.1 dst src || (s.chan src dst).head?.all (fun m =>
      (binds (s.nodes dst).maxRoundId m.message).all (fun b =>
        (calledIds (historyAt dst es)).all (fun r => decide (r ≤ b))) &&
      (!takesOver m.message (s.nodes dst).context || !(s.nodes dst).context.valueAccepted ||
        decide ((s.nodes dst).context.acceptedId ≤ reportedId m.message) ||
        reportedValue m.message == (s.nodes dst).context.acceptedValue))
  | _ => true

theorem honoursVote_deliver {s : Cluster n}
    (hok : holding honoursVote es s (up,.deliver src dst o)) (hc : s.chan src dst = m::rest)
    (hu : up dst src = true) :
    (∀ b, binds (s.nodes dst).maxRoundId m.message = some b →
      ∀ r ∈ calledIds (historyAt dst es), r ≤ b) ∧
    (takesOver m.message (s.nodes dst).context = true →
      (s.nodes dst).context.valueAccepted = true →
      reportedId m.message < (s.nodes dst).context.acceptedId →
      reportedValue m.message = (s.nodes dst).context.acceptedValue) := by
  simp only [holding, honoursVote, hc, hu, Bool.not_true, Bool.false_or, List.head?_cons,
    Option.all_some, Bool.and_eq_true] at hok
  obtain ⟨hbind,htake⟩ := hok
  constructor
  · intro b hb r hr
    rw [hb, Option.all_some, List.all_eq_true] at hbind
    exact of_decide_eq_true (hbind r hr)
  · intro ht hv hlt
    have hle : ¬ (s.nodes dst).context.acceptedId ≤ reportedId m.message := by omega
    simpa [ht, hv, hle] using htake

theorem honoursVote_local (i : Fin n) : Process.Respects (holding honoursVote) i KeepsVote := by
  constructor
  · intro es s up a hok
    cases a with
    | proceed now =>
      intro v hv hacc hmax
      simpa [holding, honoursVote, hv, hacc, hmax] using hok
    | _ => trivial
  · intro es s up src o m rest hok hc hu
    exact (honoursVote_deliver hok hc hu).2

theorem calledIds_received (h : List (Obs (Fin n) Packet (Event n))) (src : Fin n)
    (packet : Packet) : calledIds (h ++ [.received src packet]) = calledIds h := by
  simp [calledIds]

theorem handles_aboveOwn {rank : Fin n} (hp : Preceded AboveOwn h)
    (hb : ∀ b, binds s.maxRoundId packet.message = some b → ∀ r ∈ calledIds h, r ≤ b)
    (ha : Handles rank s src packet now out) :
    Preceded AboveOwn (h ++ .received src packet::out.trace) := by
  have hreceived : Preceded AboveOwn (h ++ [.received src packet]) := hp.snoc trivial
  cases ha with
  | promised pid hm hid =>
    have hbound := hb pid (by simp [hm, binds, hid])
    have hpromised := hreceived.snoc (x := .did (.promised src packet.call pid))
      (by rwa [AboveOwn, calledIds_received])
    have hsent := hpromised.snoc (x := .sent src
      ⟨.promise (generateUniqueId rank now) pid (reported s.context),packet.call⟩) (by trivial)
    simpa [Outcome.trace] using hsent
  | accepted pid roundId value hm hid =>
    have hbound := hb roundId (by simp [hm, binds, hid])
    have haccepted := hreceived.snoc (x := .did (.accepted src packet.call roundId value))
      (by rwa [AboveOwn, calledIds_received])
    have hsent := haccepted.snoc (x := .sent src
      ⟨.accept (generateUniqueId rank now) pid,packet.call⟩) (by trivial)
    simpa [Outcome.trace] using hsent
  | learned pid roundId value hm =>
    have happended := hreceived.snoc (x := .did (.appended src packet.call value)) (by trivial)
    simpa [Outcome.trace] using happended
  | _ => exact hreceived

/-- Every round a node binds itself to is above its own PREPAREs so far. -/
theorem reach_aboveOwn (hr : Reach (n := n) (holding honoursVote) s es) (p : Fin n) :
    Preceded AboveOwn (historyAt p es) := by
  induction hr with
  | start => exact .nil
  | @step s es l t e _ hok hs ih =>
    obtain ⟨up,l⟩ := l
    rw [historyAt_append]
    cases Process.step_iff.mp hs with
    | act i a out ho =>
      refine ih.append_free ?_
      intro o hm before
      rw [historyAt_tag] at hm
      split at hm
      · rcases mem_trace.mp hm with ⟨e,he,rfl⟩ | ⟨dst,packet,-,rfl⟩
        · cases acts_of_act ho
          all_goals simp only [List.mem_cons, List.not_mem_nil, or_false] at he
          all_goals subst e; trivial
        · trivial
      · simp at hm
    | handle src dst o m rest out hc hu ho =>
      rw [historyAt_cons, historyAt_tag]
      by_cases hd : dst = p
      · subst hd
        simpa using handles_aboveOwn ih (honoursVote_deliver hok hc hu).1 (handles_of_handle ho).2
      · simpa [hd] using ih
    | discard src dst o m rest hc hu => simpa using ih

/-- While these conditions are met, a proposer binds itself to no round below its own
PREPAREs and proposes what it has itself accepted above everything reported to it. -/
theorem own_vote_honoured (hr : Reach (n := n) (holding honoursVote) s es) (p : Fin n) :
    Preceded AboveOwn (historyAt p es) ∧ Preceded ProposesOwn (historyAt p es) :=
  ⟨reach_aboveOwn hr p,
    (run_votes (reach_guarded (honoursVote_local p) hr) (no_blank_promise hr p)).proposes⟩

/-- `p` accepts "a" of `q`, and then starts a round of its own. -/
def proposesAfter (p q r : Fin n) (value : String) : List (Move n) :=
  [.call q "a" 10,.proceed q 10,.proceed q 10,.deliver q p 10,.deliver p q 10,.proceed q 15,
    .proceed q 15,.proceed q 15,.proceed q 15,.deliver q p 15,.call p value 20,.proceed p 20,
    .proceed p 20,.deliver p r 20,.deliver r p 20,.proceed p 25,.proceed p 25]

/-- The last observation of node `i`, and what its history had said before it. -/
def lastAt (i : Fin n) (r : Cluster n × History n) :
    Option (Obs (Fin n) Packet (Event n)) × List Int × Option (Int × String) :=
  ((historyAt i r.2).getLast?,(heardPromises (historyAt i r.2).dropLast).2,
    lastAccepted (historyAt i r.2).dropLast)

/-- The context of a proposer that has accepted (10,"a") and counted a plain promise. -/
def votedContext : Context where
  roundId := 20
  valueAccepted := true
  acceptedId := 10
  acceptedValue := "a"
  promiseCount := 1

theorem proposesAfter_same : outcome (n := 3) honoursVote (proposesAfter 0 1 2 "a") (lastAt 0) =
    some (some (.did (.proposed 1 votedContext "a")),[],some (10,"a")) := by
  decide

theorem own_vote_honoured_proposesAfter : ∃ (s : Cluster 3) (es : History 3),
    Reach (holding honoursVote) s es ∧ Preceded AboveOwn (historyAt 0 es) ∧
    ∃ before, historyAt 0 es = before ++ [.did (.proposed 1 votedContext "a")] ∧
      ∃ r, lastAccepted before = some (r,"a") := by
  obtain ⟨s,es,hr,h⟩ := Machine.exists_reach (fun _ _ _ h => h) proposesAfter_same
  simp only [lastAt, Prod.mk.injEq] at h
  have he := (List.dropLast_append_getLast? _ h.1).symm
  obtain ⟨habove,hproposes⟩ := own_vote_honoured hr 0
  have hown := hproposes _ _ [] he rfl (by rw [h.2.1]; simp)
  exact ⟨s,es,hr,habove,_,he,hown⟩

/-- `q` broadcasts PREPARE 10, and `p` handles it after it has broadcast PREPARE 20. -/
def promisesBelow (p q : Fin n) : List (Move n) :=
  [.call q "a" 10,.proceed q 10,.call p "b" 20,.deliver q p 20]

theorem promisesBelow_history : outcome (n := 2) anyMove (promisesBelow 0 1)
    (fun r => historyAt 0 r.2) = some ([.did (.called 1 "b" 20),.received 1 ⟨.prepare 10,1⟩] ++
      .did (.promised 1 1 10)::[.sent 1 ⟨.promise 20 10 none,1⟩]) := by
  decide

theorem proposesAfter_other : outcome (n := 3) anyMove (proposesAfter 0 1 2 "b") (lastAt 0) =
    some (some (.did (.proposed 1 votedContext "b")),[],some (10,"a")) := by
  decide

/-- A node promises a round below its own PREPARE; another one has accepted "a", hears
of nothing, and proposes "b". -/
theorem own_vote_ignored :
    (∃ (s : Cluster 2) (es : History 2), Reach Machine.free s es ∧
      ¬ Preceded AboveOwn (historyAt 0 es)) ∧
    ∃ (s : Cluster 3) (es : History 3), Reach Machine.free s es ∧
      ¬ Preceded ProposesOwn (historyAt 0 es) := by
  constructor
  · obtain ⟨s,es,hr,h⟩ := Machine.exists_reach (fun _ _ _ _ => trivial) promisesBelow_history
    refine ⟨s,es,hr,?_⟩
    intro hp
    have hle := hp _ _ _ h 20 (by simp [calledIds])
    omega
  · obtain ⟨s,es,hr,h⟩ := Machine.exists_reach (fun _ _ _ _ => trivial) proposesAfter_other
    refine ⟨s,es,hr,?_⟩
    intro hp
    simp only [lastAt, Prod.mk.injEq] at h
    have he := (List.dropLast_append_getLast? _ h.1).symm
    obtain ⟨r,hown⟩ := hp _ _ [] he rfl (by rw [h.2.1]; simp)
    rw [h.2.2] at hown
    simp at hown

end Algorep.Proofs
