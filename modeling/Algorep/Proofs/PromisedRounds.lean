import Algorep.Kit.Before
import Algorep.Proofs.Provenance

namespace Algorep.Proofs
open Kit Program Program.Consensus

/-- The PROMISE an acceptance goes back to. -/
def PromisedBefore (o : Obs (Fin n) Packet (Event n))
    (before : List (Obs (Fin n) Packet (Event n))) : Prop :=
  match o with
  | .did (.accepted _ _ roundId _) =>
    ∃ dst pid accepted c, .sent dst ⟨.promise pid roundId accepted,c⟩ ∈ before
  | _ => True

/-- A PROPOSE that carries the reset value of `roundId`. -/
def blankPropose : Message → Bool
  | .propose _ roundId _ => roundId == -1
  | _ => false

/-- A blank PROPOSE only meets nodes that have promised something. -/
def NoBlankAccept (s : Node n) : Input (Fin n) Action Nat Packet → Prop
  | .act _ => True
  | .handle _ packet _ => blankPropose packet.message = true → s.maxRoundId ≠ -1

/-- The watermark is the initial one or comes from a PROMISE. -/
def Watermarked (s : Node n) (h : List (Obs (Fin n) Packet (Event n))) : Prop :=
  s.maxRoundId = -1 ∨
    ∃ dst pid accepted c, .sent dst ⟨.promise pid s.maxRoundId accepted,c⟩ ∈ h

theorem Watermarked.keep (hw : Watermarked s h) (hm : s'.maxRoundId = s.maxRoundId) :
    Watermarked s' (h ++ h') := by
  unfold Watermarked at hw ⊢
  rw [hm]
  rcases hw with hw | ⟨dst,pid,accepted,c,hs⟩
  · exact .inl hw
  · exact .inr ⟨dst,pid,accepted,c,List.mem_append_left _ hs⟩

theorem acts_promisedBefore (hp : Preceded PromisedBefore h) (ha : Acts rank s a out) :
    Preceded PromisedBefore (h ++ out.trace) := by
  refine hp.append_free ?_
  intro o ho before
  rcases mem_trace.mp ho with ⟨e,he,rfl⟩ | ⟨dst,packet,_,rfl⟩
  · cases ha
    all_goals simp only [List.mem_cons, List.not_mem_nil, or_false] at he
    all_goals subst e; trivial
  · trivial

theorem handles_promisedBefore {rank : Fin n} (hp : Preceded PromisedBefore h)
    (hw : Watermarked s h) (hb : NoBlankAccept s (.handle src packet now))
    (ha : Handles rank s src packet now out) :
    Preceded PromisedBefore (h ++ .received src packet::out.trace) := by
  cases ha with
  | accepted pid roundId value hm hid =>
    have hreceived : Preceded PromisedBefore (h ++ [.received src packet]) := hp.snoc trivial
    have hq : PromisedBefore (.did (.accepted src packet.call roundId value))
        (h ++ [.received src packet]) := by
      rcases hw with hw | ⟨dst,mid,accepted,c,hs⟩
      · refine absurd hw (hb ?_)
        simp [hm, blankPropose, hid, hw]
      · exact ⟨dst,mid,accepted,c,List.mem_append_left _ (hid ▸ hs)⟩
    have h := (hreceived.snoc hq).snoc (x := .sent src
      ⟨.accept (generateUniqueId rank now) pid,packet.call⟩) (by trivial)
    simpa [Outcome.trace, List.append_assoc] using h
  | promised pid hm hid | learned pid roundId value hm =>
    refine hp.append_free ?_
    intro o ho before
    rcases List.mem_cons.mp ho with rfl | ho
    · trivial
    · rcases mem_trace.mp ho with ⟨e,he,rfl⟩ | ⟨_,_,_,rfl⟩
      · simp only [List.mem_cons, List.not_mem_nil, or_false] at he
        subst e
        trivial
      · trivial
  | refusedPrepare | countedPromise | refusedPropose | countedAccept =>
    exact hp.snoc trivial

theorem handles_watermarked (hw : Watermarked s h) (ha : Handles rank s src packet now out) :
    Watermarked out.state (h ++ .received src packet::out.trace) := by
  cases ha with
  | promised pid hm hid =>
    exact .inr ⟨_,_,_,_,List.mem_append_right _ (List.mem_cons_of_mem _
      (mem_trace.mpr (.inr ⟨_,_,rfl,rfl⟩)))⟩
  | _ => exact hw.keep rfl

theorem acts_watermarked (hw : Watermarked s h) (ha : Acts rank s a out) :
    Watermarked out.state (h ++ out.trace) := by
  cases ha
  all_goals exact hw.keep rfl

/-- Under the guard every acceptance goes back to a PROMISE of the same round. -/
theorem run_promisedBefore (hr : LocalRun (process n) NoBlankAccept i s h) :
    Preceded PromisedBefore h := by
  have hboth : Preceded PromisedBefore h ∧ Watermarked s h := by
    induction hr with
    | start => exact ⟨.nil,.inl rfl⟩
    | act _ _ ho ih =>
      exact ⟨acts_promisedBefore ih.1 (acts_of_act ho),acts_watermarked ih.2 (acts_of_act ho)⟩
    | handle _ hok ho ih =>
      have ha := (handles_of_handle ho).2
      exact ⟨handles_promisedBefore ih.1 ih.2 hok ha,handles_watermarked ih.2 ha⟩
  exact hboth.1

/-- `r` is blank or the id of one of the node's own PREPAREs. -/
def OwnRound (h : List (Obs (Fin n) Packet (Event n))) (r : Int) : Prop :=
  r = -1 ∨ ∃ c v, .did (.called c v r) ∈ h

theorem OwnRound.mono (ho : OwnRound h r) (hm : ∀ o ∈ h, o ∈ h') : OwnRound h' r := by
  rcases ho with ho | ⟨c,v,hc⟩
  · exact .inl ho
  · exact .inr ⟨c,v,hm _ hc⟩

/-- The rounds in the context of a node and in its proposals are its own. -/
structure OwnRounds (s : Node n) (h : List (Obs (Fin n) Packet (Event n))) : Prop where
  context : OwnRound h s.context.roundId
  proposed : ∀ c context w, .did (.proposed c context w) ∈ h → OwnRound h context.roundId

theorem OwnRounds.extend {h h' : List (Obs (Fin n) Packet (Event n))} (ho : OwnRounds s h)
    (hc : OwnRound (h ++ h') s'.context.roundId)
    (hp : ∀ c context w, .did (.proposed c context w) ∈ h' → context = s.context) :
    OwnRounds s' (h ++ h') := by
  refine ⟨hc,?_⟩
  intro c context w hm
  rcases List.mem_append.mp hm with hm | hm
  · exact (ho.proposed c context w hm).mono (fun _ => List.mem_append_left _)
  · exact hp c context w hm ▸ ho.context.mono (fun _ => List.mem_append_left _)

theorem acts_ownRounds (ho : OwnRounds s h) (ha : Acts rank s a out) :
    OwnRounds out.state (h ++ out.trace) := by
  have hold : OwnRound (h ++ out.trace) s.context.roundId :=
    ho.context.mono (fun _ => List.mem_append_left _)
  cases ha with
  | called value now ht =>
    refine ho.extend (.inr ⟨_,_,List.mem_append_right _ List.mem_cons_self⟩) ?_
    intro c context w hm
    simp [Outcome.trace] at hm
  | proposed value now ht =>
    refine ho.extend hold ?_
    intro c context w hm
    simp only [Outcome.trace, List.map_cons, List.map_nil, Option.map_none, Option.toList_none,
      List.append_nil, List.mem_singleton] at hm
    cases hm
    rfl
  | returned | reset =>
    refine ho.extend (.inl rfl) ?_
    intro c context w hm
    simp [Outcome.trace] at hm
  | _ =>
    refine ho.extend hold ?_
    intro c context w hm
    simp [Outcome.trace] at hm

@[simp] theorem handlePromise_roundId (roundId : Int) (accepted : Option (Int × String))
    (context : Context) :
    (handlePromiseMessage roundId accepted context).roundId = context.roundId := by
  simp only [handlePromiseMessage]
  split
  · split <;> rfl
  · rfl

theorem handles_ownRounds {rank : Fin n} (ho : OwnRounds s h)
    (ha : Handles rank s src packet now out) :
    OwnRounds out.state (h ++ .received src packet::out.trace) := by
  have hold : OwnRound (h ++ .received src packet::out.trace) s.context.roundId :=
    ho.context.mono (fun _ => List.mem_append_left _)
  cases ha with
  | countedPromise pid roundId accepted hm =>
    refine ho.extend (by simpa using hold) ?_
    intro c context w hm
    simp [Outcome.trace] at hm
  | _ =>
    refine ho.extend hold ?_
    intro c context w hm
    simp [Outcome.trace] at hm

theorem run_ownRounds (hr : LocalRun (process n) ok i s h) : OwnRounds s h := by
  induction hr with
  | start => exact ⟨.inl rfl,by simp⟩
  | act _ _ ho ih => exact acts_ownRounds ih (acts_of_act ho)
  | handle _ _ ho ih => exact handles_ownRounds ih (handles_of_handle ho).2

theorem run_called_nonneg (hr : LocalRun (process n) ok i s h)
    (hm : .did (.called c v r) ∈ h) : 0 ≤ r := by
  induction hr with
  | start => simp at hm
  | act _ _ ho ih =>
    rcases List.mem_append.mp hm with hm | hm
    · exact ih hm
    · cases acts_of_act ho with
      | called value now ht =>
        simp only [Outcome.trace, List.map_cons, List.map_nil, Option.map_none,
          Option.toList_none, List.append_nil, List.mem_singleton] at hm
        cases hm
        exact Int.natCast_nonneg now
      | _ => simp [Outcome.trace] at hm
  | handle _ _ ho ih =>
    rcases List.mem_append.mp hm with hm | hm
    · exact ih hm
    · cases (handles_of_handle ho).2
      all_goals simp [Outcome.trace] at hm

/-- The ids of the PREPAREs of a node. -/
def calledIds (h : List (Obs (Fin n) Packet (Event n))) : List Int :=
  h.filterMap (fun o => match o with
    | .did (.called _ _ pid) => some pid
    | _ => none)

theorem mem_calledIds {h : List (Obs (Fin n) Packet (Event n))} (hm : .did (.called c v r) ∈ h) :
    r ∈ calledIds h :=
  List.mem_filterMap.mpr ⟨_,hm,rfl⟩

/-- No two nodes broadcast PREPAREs of one id, and a PROPOSE that carries -1 only
meets nodes that have promised something. -/
def soundRounds (es : History n) (s : Cluster n) (l : Move n) : Bool :=
  match l.2 with
  | .act p (.startConsensus _ now) =>
    decide (∀ q, q ≠ p → generateUniqueId p now ∉ calledIds (historyAt q es))
  | .deliver src dst _ => !l.1 dst src ||
    (s.chan src dst).head?.all (fun m =>
      !(blankPropose m.message && (s.nodes dst).maxRoundId == -1))
  | _ => true

theorem soundRounds_local (i : Fin n) : Process.Respects (holding soundRounds) i NoBlankAccept := by
  refine ⟨fun _ _ _ _ _ => trivial,?_⟩
  intro es s up src o m rest hok hc hu hb
  simpa [holding, soundRounds, hc, hu, hb] using hok

/-- A new call in the history is the `startConsensus` step that made it. -/
theorem step_called {s : Cluster n} (h : (process n).Step up s l t e)
    (hm : .did (.called c v r) ∈ historyAt i e) :
    ∃ now, l = .act i (.startConsensus v now) ∧ r = generateUniqueId i now := by
  cases h with
  | act j a out ho =>
    rw [historyAt_tag] at hm
    split at hm
    · subst j
      cases acts_of_act ho with
      | called value now ht =>
        simp only [Outcome.trace, List.map_cons, List.map_nil, Option.map_none,
          Option.toList_none, List.append_nil, List.mem_singleton] at hm
        cases hm
        exact ⟨now,rfl,rfl⟩
      | _ => simp [Outcome.trace] at hm
    · contradiction
  | handle src dst o m rest out hc hu ho =>
    rw [historyAt_cons, historyAt_tag] at hm
    split at hm
    · cases (handles_of_handle ho).2
      all_goals simp [Outcome.trace] at hm
    · contradiction
  | discard => contradiction

theorem sound_ids_distinct (hr : Reach (n := n) (holding soundRounds) s es)
    (hp : .did (.called c v r) ∈ historyAt p es) (hq : .did (.called c' v' r) ∈ historyAt q es) :
    p = q := by
  induction hr with
  | start => simp at hp
  | @step s es l t e hr hok hs ih =>
    obtain ⟨up,l⟩ := l
    have hst := Process.step_iff.mp hs
    rw [historyAt_append] at hp hq
    rcases List.mem_append.mp hp with hp | hp
    · rcases List.mem_append.mp hq with hq | hq
      · exact ih hp hq
      · obtain ⟨now,rfl,rfl⟩ := step_called hst hq
        simp only [holding, soundRounds, decide_eq_true_eq] at hok
        by_contra hne
        exact hok p hne (mem_calledIds hp)
    · obtain ⟨now,rfl,rfl⟩ := step_called hst hp
      simp only [holding, soundRounds, decide_eq_true_eq] at hok
      rcases List.mem_append.mp hq with hq | hq
      · by_contra hne
        exact hok q (Ne.symm hne) (mem_calledIds hq)
      · obtain ⟨_,he,_⟩ := step_called hst hq
        cases he
        rfl

/-- While nodes use different ids, and a blank PROPOSE meets no blank watermark,
a node accepts a round of `p` only after it sent `p` a PROMISE of that round. -/
theorem accepts_after_promise (hr : Reach (n := n) (holding soundRounds) s es) (i p : Fin n)
    (he : historyAt i es = before ++ .did (.accepted p c r v)::after) :
    ∃ pid accepted c', .sent p ⟨.promise pid r accepted,c'⟩ ∈ before := by
  obtain ⟨p',pid,accepted,c',hsent⟩ :=
    run_promisedBefore (Process.local_run (soundRounds_local i) hr) _ _ _ he
  have hsent' : .sent p' ⟨.promise pid r accepted,c'⟩ ∈ historyAt i es :=
    he ▸ List.mem_append_left _ hsent
  -- the promised round is the id of a PREPARE of `p'`
  have hpromised : .did (.promised p' c' r) ∈ historyAt i es :=
    run_sourced (reach_local hr i) hsent'
  have hprepare : .sent i ⟨.prepare r,c'⟩ ∈ historyAt p' es :=
    Process.received_was_sent hr (run_prompted (reach_local hr i) hpromised)
  obtain ⟨v',hcalled'⟩ := run_sourced (reach_local hr p') hprepare
  -- the accepted round is the id of a PREPARE of `p`
  have haccepted : .did (.accepted p c r v) ∈ historyAt i es :=
    he ▸ List.mem_append_right _ List.mem_cons_self
  obtain ⟨mid,hreceived⟩ := run_prompted (reach_local hr i) haccepted
  obtain ⟨context,hproposed,hround⟩ :=
    run_sourced (reach_local hr p) (Process.received_was_sent hr hreceived)
  have hown := (run_ownRounds (reach_local hr p)).proposed _ _ _ hproposed
  have hpos := run_called_nonneg (reach_local hr p') hcalled'
  rcases hown with hblank | ⟨c'',v'',hcalled⟩
  · omega
  · have hpp : p = p' := sound_ids_distinct hr (hround ▸ hcalled) hcalled'
    exact ⟨pid,accepted,c',hpp ▸ hsent⟩

/-- `p` has its round promised and accepted by `r`. -/
def promisedRound (p r : Fin n) : List (Move n) :=
  [.call p "a" 10,.proceed p 10,.proceed p 10,.deliver p r 10,.deliver r p 10,.proceed p 15,
    .proceed p 15,.proceed p 15,.proceed p 15,.deliver p r 15]

theorem promisedRound_history :
    outcome (n := 3) soundRounds (promisedRound 0 2) (fun r => historyAt 2 r.2) = some
    ([.received 0 ⟨.prepare 10,1⟩,.did (.promised 0 1 10),.sent 0 ⟨.promise 10 10 none,1⟩,
      .received 0 ⟨.propose 15 10 "a",1⟩] ++ .did (.accepted 0 1 10 "a")::
      [.sent 0 ⟨.accept 15 15,1⟩]) := by
  decide

theorem accepts_after_promise_promisedRound : ∃ (s : Cluster 3) (es : History 3),
    Reach (holding soundRounds) s es ∧ .did (.accepted 0 1 10 "a") ∈ historyAt 2 es ∧
    ∃ pid accepted c', .sent 0 ⟨.promise pid 10 accepted,c'⟩ ∈ historyAt 2 es := by
  obtain ⟨s,es,hr,h⟩ := Machine.exists_reach (fun _ _ _ h => h) promisedRound_history
  obtain ⟨pid,accepted,c',hs⟩ := accepts_after_promise hr 2 0 h
  exact ⟨s,es,hr,by simp [h],pid,accepted,c',h ▸ List.mem_append_left _ hs⟩

/-- `p` and `q` call in the same second. `r` promises the round to `p` and accepts
it from `q`, which has the promise of `p`. -/
def sameSecond (p q r : Fin n) : List (Move n) :=
  [.call p "a" 10,.proceed p 10,.proceed p 10,.call q "b" 10,.proceed q 10,.proceed q 10,
    .deliver p r 10,.deliver q r 10,.deliver q p 10,.deliver p q 10,.deliver p q 10,
    .proceed q 15,.proceed q 15,.proceed q 15,.proceed q 15,.deliver q r 15]

theorem accepts_unpromised : ∃ (s : Cluster 3) (es : History 3), Reach Machine.free s es ∧
    .did (.accepted 1 1 10 "b") ∈ historyAt 2 es ∧
    ¬ ∃ pid accepted c', .sent 1 ⟨.promise pid 10 accepted,c'⟩ ∈ historyAt 2 es := by
  have hrun : outcome (n := 3) anyMove (sameSecond 0 1 2) (fun r => historyAt 2 r.2) = some
      [.received 0 ⟨.prepare 10,1⟩,.did (.promised 0 1 10),.sent 0 ⟨.promise 10 10 none,1⟩,
        .received 1 ⟨.prepare 10,1⟩,.received 1 ⟨.propose 15 10 "b",1⟩,
        .did (.accepted 1 1 10 "b"),.sent 1 ⟨.accept 15 15,1⟩] := by
    decide
  obtain ⟨s,es,hr,h⟩ := Machine.exists_reach (fun _ _ _ _ => trivial) hrun
  dsimp only at h
  refine ⟨s,es,hr,by simp [h],?_⟩
  rintro ⟨pid,accepted,c',hs⟩
  simp [h] at hs

end Algorep.Proofs
