import Algorep.Kit.Before
import Algorep.Proofs.ElectionSteps

namespace Algorep.Proofs
open Kit Program Program.Server

/-- A thread of `aliveWait` in its waiting period. -/
def waiting : List (Op n) := [.broadcastIfNoLeader,.setAliveReceived false]

def startsBroadcast (i : Fin n) (x : Server.Cluster n × Server.Move n) : Option Nat :=
  if mover x.2 = i ∧ sectionOf x.1 x.2 = some .restartElection then some (x.1.nodes i).spawned
  else none

/-- How many threads node `i` had detached at its most recent `broadcastElection`. -/
def lastBroadcast (i : Fin n) (es : Trace n) : Nat := latest (startsBroadcast i) 0 es

/-- A superior's ALIVE that node `i` handled after its most recent `broadcastElection` is
in its waiting period. -/
def awaitsSuperior (i : Fin n) (es : Trace n) (node : Server.Node n) : Bool :=
  (List.range node.spawned).any (fun k =>
    decide (lastBroadcast i es ≤ k) && node.threads (.spawned k) == waiting)

/-- No `aliveWait` clears the flag for another one that waits, and victory is declared
only with the flag still as `waitForVictory` has seen it. -/
def keepsFlag (es : Trace n) (s : Server.Cluster n) (l : Server.Move n) : Bool :=
  match sectionOf s l with
  | some (.setAliveReceived false) => !awaitsSuperior (mover l) es (s.nodes (mover l))
  | some .declareIfNoLeader => gotLeader (s.nodes (mover l)) || !(s.nodes (mover l)).aliveReceived
  | _ => true

/-- A node enters `declareVictory` only while it awaits no superior. -/
def DeclaresUnawaited (x : Server.Cluster n × Server.Move n) (before : Trace n) : Prop :=
  sectionOf x.1 x.2 = some .declareIfNoLeader → (x.1.nodes (mover x.2)).leaderNodeId = none →
    awaitsSuperior (mover x.2) before (x.1.nodes (mover x.2)) = false

theorem awaitsSuperior_iff {node : Server.Node n} : awaitsSuperior i es node = true ↔
    ∃ k < node.spawned, lastBroadcast i es ≤ k ∧ node.threads (.spawned k) = waiting := by
  simp [awaitsSuperior]

theorem lastBroadcast_snoc (i : Fin n) (es : Trace n) (x : Server.Cluster n × Server.Move n) :
    lastBroadcast i (es ++ [x]) = (startsBroadcast i x).getD (lastBroadcast i es) := by
  simp [lastBroadcast, latest_append]

/-- The threads that come back to `broadcastElection` are those of `aliveWait`. -/
def AliveShaped (node : Server.Node n) : Prop :=
  ∀ t, .broadcastIfNoLeader ∈ node.threads t →
    node.threads t = aliveWait ∨ node.threads t = waiting

theorem continues_again {node : Server.Node n} :
    ¬ Continues rank node op .broadcastIfNoLeader := by
  intro h
  cases h with
  | answered src hx | again hl hx => simp [broadcastElection] at hx
  | declared hl hx => simp [declareVictory] at hx
  | recovered src nodeId hx => simp [enableComm] at hx
  | recovering dst id k hx => simp [pausedRecovery] at hx
  | checked src b k hx =>
    rcases mem_updateChecked hx with ⟨j,-,hx⟩ | hx | hx
    · contradiction
    · simp [enableComm] at hx
    · contradiction

theorem newThread_again {node : Server.Node n} (hn : newThread rank node a = some ops)
    (hx : .broadcastIfNoLeader ∈ ops) : ops = aliveWait := by
  rcases newThread_cases hn with rfl | rfl | ⟨j,-,rfl⟩ | ⟨j,-,rfl⟩
  · rfl
  · simp [triggerElection, broadcastElection] at hx
  · simp [handleNodeFailure] at hx
  · simp [handleNodeRecovery] at hx

/-- A thread that will test for a leader again has been left alone, has just set the
flag, or is new. -/
theorem Turned.again {node : Server.Node n} (h : Turned rank node a out) (hs : AliveShaped node)
    (hx : .broadcastIfNoLeader ∈ out.state.threads t) :
    (out.state.threads t = node.threads t ∧ .broadcastIfNoLeader ∈ node.threads t) ∨
    (out.state.threads t = waiting ∧ sectionAt node a = some (.setAliveReceived true)) ∨
    out.state.threads t = aliveWait := by
  have hthread := h.thread t
  generalize out.state.threads t = ops at hthread hx
  cases hthread with
  | same ha hn => exact .inl ⟨rfl,hx⟩
  | first ops ha ht hn => exact .inr (.inr (newThread_again hn hx))
  | next timedOut now op rest ops out' ha ht he =>
    rcases List.mem_append.mp hx with hx | hx
    · exact absurd (exec_continues he _ hx) continues_again
    · have hshape := hs t (by rw [ht]; exact List.mem_cons_of_mem _ hx)
      rw [ht] at hshape
      rcases hshape with heq | heq
      · obtain ⟨rfl,rfl⟩ := List.cons.inj heq
        simp only [exec, Option.some.injEq, Prod.mk.injEq] at he
        obtain ⟨rfl,-⟩ := he
        exact .inr (.inl ⟨rfl,by simp [ha, sectionAt, ht]⟩)
      · obtain ⟨-,rfl⟩ := List.cons.inj heq
        simp at hx

theorem Turned.aliveShaped {node : Server.Node n} (h : Turned rank node a out)
    (hs : AliveShaped node) : AliveShaped out.state := by
  intro t hx
  rcases h.again hs hx with ⟨heq,hold⟩ | ⟨heq,-⟩ | heq
  · rw [heq]
    exact hs t hold
  · exact .inr heq
  · exact .inl heq

theorem Taken.aliveShaped {node x : Server.Node n} (h : Taken rank node src m tag x)
    (hs : AliveShaped node) : AliveShaped x := by
  intro t hx
  cases h with
  | kept _ hu _ =>
    rw [hu.threads] at hx ⊢
    exact hs t hx
  | election | failure =>
    rw [setThread_threads] at hx ⊢
    split at hx
    · simp at hx
    · rename_i ht
      rw [if_neg ht]
      exact hs t hx

/-- What a node keeps so that nobody is forgotten: the flag is up while a superior is
awaited. -/
structure Flagged (i : Fin n) (es : Trace n) (node : Server.Node n) : Prop where
  shaped : AliveShaped node
  unborn : Unborn node
  flag : awaitsSuperior i es node = true → node.aliveReceived = true

theorem Turned.flag {s : Server.Cluster n} (h : Turned i (s.nodes i) a out)
    (hs : Flagged i es (s.nodes i)) (hok : keepsFlag es s (.act i a) = true)
    (hw : awaitsSuperior i (es ++ [(s,.act i a)]) out.state = true) :
    out.state.aliveReceived = true := by
  obtain ⟨k,hk,hlast,hwait⟩ := awaitsSuperior_iff.mp hw
  have hsection := sectionOf_act s i a
  have hmem : .broadcastIfNoLeader ∈ out.state.threads (.spawned k) := by simp [hwait, waiting]
  rw [h.alive]
  rcases h.again hs.shaped hmem with ⟨heq,hold⟩ | ⟨-,hop⟩ | heq
  · have hborn : k < (s.nodes i).spawned := by
      apply Nat.lt_of_not_le
      intro hle
      simp [hs.unborn k hle] at hold
    have hnot : sectionAt (s.nodes i) a ≠ some .restartElection := by
      intro hop
      rw [lastBroadcast_snoc, startsBroadcast, if_pos ⟨rfl,hsection.trans hop⟩,
        Option.getD_some] at hlast
      exact absurd hborn (Nat.not_lt_of_le hlast)
    have hbefore : awaitsSuperior i es (s.nodes i) = true := by
      refine awaitsSuperior_iff.mpr ⟨k,hborn,?_,heq ▸ hwait⟩
      rw [lastBroadcast_snoc, startsBroadcast, if_neg (fun h => hnot (hsection.symm.trans h.2)),
        Option.getD_none] at hlast
      exact hlast
    have hflag := hs.flag hbefore
    cases hop : sectionAt (s.nodes i) a with
    | none => exact hflag
    | some op =>
      rw [hop] at hsection
      cases op with
      | restartElection => exact absurd hop hnot
      | setAliveReceived b =>
        cases b with
        | true => rfl
        | false => simp [keepsFlag, hsection, mover, hbefore] at hok
      | _ => exact hflag
  · simp [hop, aliveAfter]
  · rw [heq] at hwait
    simp [aliveWait, waiting] at hwait

theorem step_flagged {s t : Server.Cluster n} (hs : Flagged i es (s.nodes i))
    (hok : keepsFlag es s l = true) (hat : StepAt s t i l) :
    Flagged i (es ++ [(s,l)]) (t.nodes i) := by
  cases hat with
  | other hm he =>
    rw [he]
    refine ⟨hs.shaped,hs.unborn,?_⟩
    intro hw
    apply hs.flag
    rwa [awaitsSuperior, lastBroadcast_snoc, startsBroadcast, if_neg (fun h => hm h.1)] at hw
  | act a out hturn he =>
    rw [he]
    exact ⟨hturn.aliveShaped hs.shaped,hturn.unborn hs.unborn,hturn.flag hs hok⟩
  | receive tag src m hm htaken =>
    have hframe := htaken.frame
    refine ⟨htaken.aliveShaped hs.shaped,htaken.unborn hs.unborn,?_⟩
    intro hw
    rw [hframe.alive]
    apply hs.flag
    simpa [awaitsSuperior, lastBroadcast_snoc, startsBroadcast, sectionOf, hframe.spawned, hframe.detached]
      using hw

theorem reach_flagged (hr : TraceReach elected (fun es s l => keepsFlag es s l = true) s es) :
    Flagged i es (s.nodes i) := by
  induction hr using TraceReach.run with
  | start =>
    refine ⟨?_,fun k hk => rfl,?_⟩
    · intro t hx
      contradiction
    · intro hw
      obtain ⟨k,hk,-⟩ := awaitsSuperior_iff.mp hw
      exact absurd hk (Nat.not_lt_zero k)
  | step _ hok _ ih hs => exact step_flagged ih hok (step_at hs i)

/-- While these conditions are met, no node enters `declareVictory` while the ALIVE of a
superior keeps it waiting. -/
theorem no_victory_while_awaiting (elected : Option (Fin n))
    (hr : TraceReach elected (fun es s l => keepsFlag es s l = true) s es) :
    Preceded DeclaresUnawaited es := by
  induction hr using TraceReach.run with
  | start => exact .nil
  | @step s es l t e hr hok _ ih =>
    refine ih.snoc ?_
    intro hop hl
    dsimp only at hop hl ⊢
    have hdown : (s.nodes (mover l)).aliveReceived = false := by
      simpa [keepsFlag, hop, gotLeader, hl] using hok
    have hflag := (reach_flagged (i := mover l) hr).flag
    cases hw : awaitsSuperior (mover l) es (s.nodes (mover l)) with
    | false => rfl
    | true => simp [hflag hw] at hdown

/-- `p` hears ALIVE of `q`, and waits. -/
def waitsForSuperior (p q : Fin n) : List (Server.Move n) :=
  .act p .startElection::Move.sections p (.spawned 0) 2 0 ++ Move.election p q ++
  Move.sections q .electionReceiver 1 0 ++ Move.election q p ++ Move.sections p (.spawned 1) 1 0

/-- Meanwhile `q` declares its victory. -/
def superiorDeclares (p q : Fin n) : List (Server.Move n) :=
  waitsForSuperior p q ++ .act q .startElection::Move.sections q (.spawned 0) 3 2

/-- The wait ends without a VICTORY. `p` asks `q` again, and the wait for its second
ALIVE begins just before the first one clears the flag. -/
def losesUpdate (p q : Fin n) : List (Server.Move n) :=
  waitsForSuperior p q ++ Move.sections p (.spawned 1) 3 4 ++ Move.election p q ++
  Move.sections q .electionReceiver 1 4 ++ Move.election q p ++ Move.sections p (.spawned 2) 1 4 ++
  Move.sections p (.spawned 1) 1 4 ++ Move.sections p (.spawned 0) 2 6

/-- What the last move of a run ran, the leader its node knew, and whether its node and
node `j` awaited a superior. -/
def lastDeclares (j : Fin n) (r : Server.Cluster n × Trace n) :
    Option (Option (Op n) × Option (Fin n) × Bool × Bool) :=
  r.2.getLast?.map (fun x => (sectionOf x.1 x.2,(x.1.nodes (mover x.2)).leaderNodeId,
    awaitsSuperior (mover x.2) r.2.dropLast (x.1.nodes (mover x.2)),
    awaitsSuperior j r.2.dropLast (x.1.nodes j)))

theorem superiorDeclares_end : traceOutcome (n := 2) none keepsFlag (superiorDeclares 0 1)
    (lastDeclares 0) = some (some (some .declareIfNoLeader,none,false,true)) := by
  decide

theorem losesUpdate_end : traceOutcome (n := 2) none (fun _ _ _ => true) (losesUpdate 0 1)
    (lastDeclares 0) = some (some (some .declareIfNoLeader,none,true,true)) := by
  decide

theorem no_victory_while_awaiting_superiorDeclares : ∃ (s : Server.Cluster 2) (es : Trace 2),
    TraceReach none (fun es s l => keepsFlag es s l = true) s es ∧ Preceded DeclaresUnawaited es ∧
    ∃ before x, es = before ++ [x] ∧ sectionOf x.1 x.2 = some .declareIfNoLeader ∧
      (x.1.nodes (mover x.2)).leaderNodeId = none ∧
      awaitsSuperior 0 before (x.1.nodes 0) = true := by
  obtain ⟨s,es,hr,h⟩ := Machine.exists_reach (fun _ _ _ h => h) superiorDeclares_end
  obtain ⟨x,hx,h⟩ := Option.map_eq_some_iff.mp h
  simp only [Prod.mk.injEq] at h
  obtain ⟨hop,hl,-,hawaits⟩ := h
  exact ⟨s,es,hr,no_victory_while_awaiting none hr,_,x,
    (List.dropLast_append_getLast? _ hx).symm,hop,hl,hawaits⟩

/-- A node declares victory while it awaits a superior. -/
theorem victory_while_awaiting : ∃ (s : Server.Cluster 2) (es : Trace 2),
    TraceReach none Machine.free s es ∧ ¬ Preceded DeclaresUnawaited es := by
  obtain ⟨s,es,hr,h⟩ := Machine.exists_reach (fun _ _ _ _ => trivial) losesUpdate_end
  refine ⟨s,es,hr,?_⟩
  obtain ⟨x,hx,h⟩ := Option.map_eq_some_iff.mp h
  simp only [Prod.mk.injEq] at h
  obtain ⟨hop,hl,hawaits,-⟩ := h
  intro hp
  have hfree := hp _ x [] (List.dropLast_append_getLast? _ hx).symm hop hl
  rw [hawaits] at hfree
  contradiction

end Algorep.Proofs
