import Algorep.Kit.Before
import Algorep.Proofs.ElectionSteps

namespace Algorep.Proofs
open Kit Program Program.Server

/-- What a move settles about node `i` being deposed: it handles the VICTORY of another
node, or it enters `declareVictory`. -/
def deposal (i : Fin n) (x : Server.Cluster n × Server.Move n) : Option Bool :=
  if mover x.2 = i then
    match sectionOf x.1 x.2 with
    | some (.handleMessage srcNodeId .victory) => if srcNodeId = i then none else some true
    | some .declareIfNoLeader => if gotLeader (x.1.nodes i) then none else some false
    | _ => none
  else none

/-- Node `i` has handled a VICTORY from another node and has not run `declareVictory` since. -/
def deposed (i : Fin n) (es : Trace n) : Bool := latest (deposal i) false es

/-- The message a move hands to another node. -/
def sentBy (s : Server.Cluster n) : Server.Move n → Option (Fin n × Server.Message n)
  | .act i a => (Server.act i (s.nodes i) a).bind Outcome.send
  | .receive _ _ _ => none

/-- A deposed node sends no VICTORY. -/
def SendsUndeposed (x : Server.Cluster n × Server.Move n) (before : Trace n) : Prop :=
  ∀ dst, sentBy x.1 x.2 = some (dst,.victory) → deposed (mover x.2) before = false

def isVictory : Op n → Bool
  | .send _ .victory => true
  | _ => false

/-- Some thread still has a VICTORY to send. -/
def hasVictory (node : Server.Node n) : Bool :=
  (threadsOf node).any (fun t => (node.threads t).any isVictory)

/-- A deposed node goes on with a STATE_UPDATED only with nothing to confirm and with its
sender marked dead; and a VICTORY of another node is handled by nodes that have none
left to send. -/
def deposesCleanly (es : Trace n) (s : Server.Cluster n) (l : Server.Move n) : Bool :=
  match sectionOf s l with
  | some (.updateChecked srcNodeId correctRecoveryId _) => !deposed (mover l) es ||
    ((s.nodes (mover l)).dropsFrom (mover l) srcNodeId .leaderElection &&
      !(correctRecoveryId && (s.nodes (mover l)).leaderNodeId == some (mover l)))
  | some (.handleMessage srcNodeId .victory) =>
    srcNodeId == mover l || !hasVictory (s.nodes (mover l))
  | _ => true

theorem hasVictory_eq_false {node : Server.Node n} (hu : Unborn node)
    (h : hasVictory node = false) (hx : x ∈ node.threads t) : isVictory x = false := by
  have hnone := List.any_eq_false.mp h t (mem_threadsOf hu hx)
  rw [Bool.not_eq_true, List.any_eq_false] at hnone
  simpa using hnone x hx

theorem deposed_snoc (i : Fin n) (es : Trace n) (x : Server.Cluster n × Server.Move n) :
    deposed i (es ++ [x]) = (deposal i x).getD (deposed i es) := by
  simp [deposed, latest_append]

/-- What is left of a VICTORY to send at a deposed node: one that will be dropped. -/
structure Deposed (i : Fin n) (es : Trace n) (node : Server.Node n) : Prop where
  threads : Threaded node
  silent : deposed i es = true → ∀ t dst, .send dst .victory ∈ node.threads t →
    t = .failureReceiver ∧ node.threads t = [.send dst .victory] ∧
      node.dropsFrom i dst .leaderElection = true

/-- The sections that leave a VICTORY to send. -/
theorem continues_victory {node : Server.Node n}
    (h : Continues rank node op (.send dst .victory)) :
    (op = .declareIfNoLeader ∧ node.leaderNodeId = none) ∨ ∃ b k, op = .updateChecked dst b k := by
  cases h with
  | answered src hx | again hl hx => simp [broadcastElection] at hx
  | declared hl hx => exact .inl ⟨rfl,hl⟩
  | recovered src nodeId hx => simp [enableComm] at hx
  | recovering dst id k hx => simp [pausedRecovery] at hx
  | checked src b k hx =>
    rcases mem_updateChecked hx with ⟨j,-,hx⟩ | hx | hx
    · simp at hx
    · simp [enableComm] at hx
    · cases hx
      exact .inr ⟨b,k,rfl⟩

/-- A VICTORY that is still to be sent after a move was to be sent before, unless a
declaration or the second half of `handleStateUpdate` has left it. -/
theorem Turned.victory_came {node : Server.Node n} (h : Turned rank node a out)
    (hx : .send dst .victory ∈ out.state.threads t) :
    .send dst .victory ∈ node.threads t ∨
    (sectionAt node a = some .declareIfNoLeader ∧ node.leaderNodeId = none) ∨
    ∃ timedOut now b k, a = .run t timedOut now ∧
      sectionAt node a = some (.updateChecked dst b k) := by
  rcases h.came hx with hold | ⟨timedOut,now,op,ha,hop,hcont⟩ | ⟨ops,ht,hn,hx⟩
  · exact .inl hold
  · rcases continues_victory hcont with ⟨rfl,hl⟩ | ⟨b,k,rfl⟩
    · exact .inr (.inl ⟨hop,hl⟩)
    · exact .inr (.inr ⟨timedOut,now,b,k,ha,hop⟩)
  · cases newThread_opening hn hx

/-- While only VICTORYs to dropped nodes are left, none of these nodes comes back. -/
theorem Turned.drops {node : Server.Node n} (h : Turned rank node a out) (hs : Threaded node)
    (ht : node.threads .failureReceiver = [.send dst .victory])
    (hd : node.dropsFrom rank dst .leaderElection = true) :
    out.state.dropsFrom rank dst .leaderElection = true := by
  unfold Server.Node.dropsFrom at hd ⊢
  rw [h.status]
  cases hop : sectionAt node a with
  | none => exact hd
  | some op =>
    cases op with
    | setNodeStatus j b answers =>
      cases b with
      | true =>
        obtain ⟨t,timedOut,now,-,hmem⟩ := sectionAt_run hop
        have hfail := hs.failure t _ hmem rfl
        subst hfail
        simp [ht] at hmem
      | false =>
        simp only [messageShouldDrop, Option.map_some, Option.getD_some, statusAfter] at hd ⊢
        by_cases hj : dst = j
        · subst hj
          simp at hd ⊢
          exact hd.1
        · simpa [hj] using hd
    | _ => exact hd

/-- What deposes a node. -/
theorem deposal_true {s : Server.Cluster n} (h : deposal i (s,.act i a) = some true) :
    ∃ src, sectionAt (s.nodes i) a = some (.handleMessage src .victory) ∧ src ≠ i := by
  unfold deposal at h
  dsimp only at h
  rw [if_pos (by rfl), sectionOf_act] at h
  split at h
  · rename_i src hop
    split at h
    · contradiction
    · rename_i hsrc
      exact ⟨src,hop,hsrc⟩
  · split at h <;> simp at h
  · contradiction

theorem Turned.unchecked {node : Server.Node n} (h : Turned rank node (.run t timedOut now) out)
    (hs : Threaded node) (ht : (node.threads t).head? = some (.updateChecked dst b k))
    (hb : (b && node.leaderNodeId == some rank) = false) :
    out.state.threads t = [.send dst .victory] := by
  have hsingle := hs.alone t _ (List.mem_of_mem_head? ht) rfl
  have hthread := h.thread t
  generalize out.state.threads t = ops at hthread
  cases hthread with
  | same ha hn => exact absurd rfl (ha timedOut now)
  | first ops ha => exact absurd rfl (ha timedOut now)
  | next timedOut' now' op rest ops out' ha hops he =>
    rw [hsingle] at hops
    obtain ⟨rfl,rfl⟩ := List.cons.inj hops
    simp only [exec, updateChecked, hb, Bool.false_eq_true, ↓reduceIte, List.nil_append,
      Option.some.injEq, Prod.mk.injEq] at he
    rw [← he.1, List.append_nil]

theorem Turned.deposed {s : Server.Cluster n} (h : Turned i (s.nodes i) a out)
    (hs : Deposed i es (s.nodes i)) (hok : deposesCleanly es s (.act i a) = true) :
    Deposed i (es ++ [(s,.act i a)]) out.state := by
  refine ⟨h.threaded hs.threads,?_⟩
  intro hdep t dst hx
  rw [deposed_snoc] at hdep
  rcases h.victory_came hx with hold | ⟨hop,hl⟩ | ⟨timedOut,now,b,k,rfl,hop⟩
  · cases hbefore : Proofs.deposed i es with
    | true =>
      obtain ⟨rfl,hthread,hdrop⟩ := hs.silent hbefore t dst hold
      refine ⟨rfl,?_,h.drops hs.threads hthread hdrop⟩
      have hafter := h.thread .failureReceiver
      generalize out.state.threads .failureReceiver = ops at hafter hx
      cases hafter with
      | same ha hn => exact hthread
      | first ops ha ht hn => contradiction
      | next timedOut now op rest ops out' ha ht he =>
        rw [hthread] at ht
        obtain ⟨rfl,rfl⟩ := List.cons.inj ht
        simp only [exec, Option.some.injEq, Prod.mk.injEq] at he
        simp [← he.1] at hx
    | false =>
      have hset : deposal i (s,.act i a) = some true := by
        rw [hbefore] at hdep
        cases hd : deposal i (s,.act i a) with
        | none => simp [hd] at hdep
        | some b => simpa [hd] using hdep
      obtain ⟨src,hop,hsrc⟩ := deposal_true hset
      have hnone : hasVictory (s.nodes i) = false := by
        simpa [deposesCleanly, sectionOf_act, hop, mover, hsrc] using hok
      have hquiet := hasVictory_eq_false hs.threads.unborn hnone hold
      simp [isVictory] at hquiet
  · simp [deposal, mover, sectionOf_act, hop, gotLeader, hl] at hdep
  · have hbefore : Proofs.deposed i es = true := by
      simpa [deposal, mover, sectionOf_act, hop] using hdep
    have hclean : ((s.nodes i).dropsFrom i dst .leaderElection &&
        !(b && (s.nodes i).leaderNodeId == some i)) = true := by
      simpa [deposesCleanly, sectionOf_act, hop, mover, hbefore] using hok
    rw [Bool.and_eq_true, Bool.not_eq_true'] at hclean
    have hfail := hs.threads.failure t _ (List.mem_of_mem_head? hop) rfl
    refine ⟨hfail,h.unchecked hs.threads hop hclean.2,?_⟩
    unfold Server.Node.dropsFrom at hclean ⊢
    rw [h.status, hop]
    exact hclean.1

theorem step_deposed {s t : Server.Cluster n} (hs : Deposed i es (s.nodes i))
    (hlane : s.InLane Server.Message.tag) (hok : deposesCleanly es s l = true)
    (hat : StepAt s t i l) : Deposed i (es ++ [(s,l)]) (t.nodes i) := by
  cases hat with
  | other hm he =>
    rw [he]
    refine ⟨hs.threads,?_⟩
    rw [deposed_snoc, deposal, if_neg hm]
    exact hs.silent
  | act a out hturn he =>
    rw [he]
    exact hturn.deposed hs hok
  | receive tag src m hm htaken =>
    refine ⟨htaken.threaded (hlane tag src i m hm) hs.threads,?_⟩
    intro hdep t' dst hx
    have hbefore : deposed i es = true := by
      simpa [deposed_snoc, deposal, sectionOf] using hdep
    have hold : .send dst .victory ∈ (s.nodes i).threads t' :=
      (htaken.came hx).resolve_right (by simp)
    obtain ⟨rfl,hthread,hdrop⟩ := hs.silent hbefore t' dst hold
    rw [htaken.busy hold]
    unfold Server.Node.dropsFrom at hdrop ⊢
    rw [htaken.frame.status]
    exact ⟨rfl,hthread,hdrop⟩

theorem reach_deposed {s : Server.Cluster n}
    (hr : TraceReach elected (fun es s l => deposesCleanly es s l = true) s es) (i : Fin n) :
    Deposed i es (s.nodes i) := by
  induction hr using TraceReach.run with
  | start =>
    refine ⟨⟨fun k hk => rfl,?_,?_⟩,?_⟩
    · intro t x hx
      contradiction
    · intro t x hx
      contradiction
    · intro hdep
      simp [deposed] at hdep
  | step hr hok _ ih hs => exact step_deposed ih (reach_threaded hr).1 hok (step_at hs i)

/-- While these conditions are met, a node that has been deposed and has not run
`declareVictory` since sends no VICTORY. -/
theorem deposed_sends_no_victory (elected : Option (Fin n))
    (hr : TraceReach elected (fun es s l => deposesCleanly es s l = true) s es) :
    Preceded SendsUndeposed es := by
  induction hr using TraceReach.run with
  | start => exact .nil
  | @step s es l t e hr hok _ ih =>
    refine ih.snoc ?_
    intro dst hsent
    dsimp only at hsent ⊢
    cases l with
    | receive => simp [sentBy] at hsent
    | act i a =>
      obtain ⟨out,ho,hsend⟩ := Option.bind_eq_some_iff.mp hsent
      have hturn := turned_of_turns (turns_of_act ho)
      have hbind := (hturn.send dst .victory hsend).resolve_left (by simp [Server.Message.tag])
      obtain ⟨op,hop,hsends⟩ := Option.bind_eq_some_iff.mp hbind
      obtain ⟨rfl,hlinked⟩ := sends_victory hsends
      cases hdep : deposed i es with
      | false => exact hdep
      | true =>
        obtain ⟨t,timedOut,now,-,hx⟩ := sectionAt_run hop
        have hdrop := ((reach_deposed hr i).silent hdep t dst hx).2.2
        rw [hlinked] at hdrop
        contradiction

/-- `q` is elected and starts to recover `r`. Then `p` declares victory too, its messages
reach `q`, and it starts to recover `r` as well. `r` answers both. -/
def twoLeadersRecover (p q r : Fin n) : List (Server.Move n) :=
  .act q .startElection::Move.sections q (.spawned 0) 7 0 ++ Move.marksDead q r 1 ++
  Move.sendsState q r 2 10 ++
  .act p .startElection::Move.sections p (.spawned 0) 8 20 ++ Move.election p q ++
  Move.sections q .electionReceiver 1 20 ++ Move.election p q ++ Move.marksDead p r 1 ++
  Move.sendsState p r 2 30 ++ Move.failure q r 2 ++ Move.failure p r 2

/-- `q` goes on with the answer while it has `r` marked dead. -/
def answeredMarkedDead (p q r : Fin n) : List (Server.Move n) :=
  twoLeadersRecover p q r ++ Move.failure r q 3

/-- `q` goes on with the answer after the RECOVERED of `p`. -/
def answeredRecovered (p q r : Fin n) : List (Server.Move n) :=
  twoLeadersRecover p q r ++ Move.failure r p 4 ++ Move.failure p q 3 ++ Move.failure r q 3

/-- What the last move of a run ran and sent, and whether its node was deposed. -/
def lastSends (r : Server.Cluster n × Trace n) :
    Option (Option (Op n) × Option (Fin n × Server.Message n) × Bool) :=
  r.2.getLast?.map (fun x =>
    (sectionOf x.1 x.2,sentBy x.1 x.2,deposed (mover x.2) r.2.dropLast))

theorem answeredMarkedDead_end : traceOutcome (n := 3) none deposesCleanly
    (answeredMarkedDead 1 2 0) lastSends = some (some (some (.send 0 .victory),none,true)) := by
  decide

theorem answeredRecovered_end : traceOutcome (n := 3) none (fun _ _ _ => true)
    (answeredRecovered 1 2 0) lastSends =
      some (some (some (.send 0 .victory),some (0,.victory),true)) := by
  decide

theorem deposed_sends_no_victory_answeredMarkedDead :
    ∃ (s : Server.Cluster 3) (es : Trace 3),
      TraceReach none (fun es s l => deposesCleanly es s l = true) s es ∧
      Preceded SendsUndeposed es ∧ ∃ before x, es = before ++ [x] ∧
        sectionOf x.1 x.2 = some (.send 0 .victory) ∧ deposed (mover x.2) before = true := by
  obtain ⟨s,es,hr,h⟩ := Machine.exists_reach (fun _ _ _ h => h) answeredMarkedDead_end
  obtain ⟨x,hx,h⟩ := Option.map_eq_some_iff.mp h
  simp only [Prod.mk.injEq] at h
  obtain ⟨hop,-,hdep⟩ := h
  exact ⟨s,es,hr,deposed_sends_no_victory none hr,_,x,
    (List.dropLast_append_getLast? _ hx).symm,hop,hdep⟩

/-- A deposed leader claims victory when it is answered late. -/
theorem deposed_sends_victory : ∃ (s : Server.Cluster 3) (es : Trace 3),
    TraceReach none Machine.free s es ∧ ¬ Preceded SendsUndeposed es := by
  obtain ⟨s,es,hr,h⟩ := Machine.exists_reach (fun _ _ _ _ => trivial) answeredRecovered_end
  refine ⟨s,es,hr,?_⟩
  obtain ⟨x,hx,h⟩ := Option.map_eq_some_iff.mp h
  simp only [Prod.mk.injEq] at h
  obtain ⟨-,hsent,hdep⟩ := h
  intro hp
  have hfree := hp _ x [] (List.dropLast_append_getLast? _ hx).symm 0 hsent
  rw [hdep] at hfree
  contradiction

end Algorep.Proofs
