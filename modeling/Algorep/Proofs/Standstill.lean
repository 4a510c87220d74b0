import Algorep.Proofs.ElectionSteps

namespace Algorep.Proofs
open Kit Program Program.Server

/-- Sections that declare a victory, or may still come to. -/
def toDeclare : Op n → Bool
  | .declareIfNoLeader | .setLeaderNodeId _ => true
  | _ => false

/-- Some thread of `triggerElection` is still there to declare victory. -/
def somebodyDeclares (node : Server.Node n) : Bool :=
  (List.range node.spawned).any (fun k => (node.threads (.spawned k)).any toDeclare)

/-- `ElectionManager::init` of node `h` has been called. -/
def initialised (elected : Option (Fin n)) (h : Fin n) (es : Trace n) : Bool :=
  elected.isSome || es.any (fun x => match x.2 with
    | .act i .startElection => i == h
    | _ => false)

/-- Once initialised, node `h` resets its leader only while somebody is there to
declare victory. -/
def keepsDeclarer (elected : Option (Fin n)) (h : Fin n) (es : Trace n) (s : Server.Cluster n)
    (l : Server.Move n) : Bool :=
  !initialised elected h es || mover l != h || sectionOf s l != some .restartElection ||
    somebodyDeclares (s.nodes h)

theorem somebodyDeclares_iff {node : Server.Node n} : somebodyDeclares node = true ↔
    ∃ k < node.spawned, ∃ x ∈ node.threads (.spawned k), toDeclare x = true := by
  simp [somebodyDeclares]

theorem initialised_append (elected : Option (Fin n)) (h : Fin n) (es : Trace n)
    (s : Server.Cluster n) (l : Server.Move n) :
    initialised elected h (es ++ [(s,l)]) =
      (initialised elected h es || initialised none h [(s,l)]) := by
  simp [initialised, Bool.or_assoc]

/-- Somebody who is there to declare stays, or a leader is set. -/
theorem Turned.declares {node : Server.Node n} (h : Turned rank node a out) (hu : Unborn node)
    (hd : somebodyDeclares node = true) :
    somebodyDeclares out.state = true ∨ out.state.leaderNodeId ≠ none := by
  obtain ⟨k,hk,x,hx,hxd⟩ := somebodyDeclares_iff.mp hd
  have hle := h.spawned_le
  rcases h.kept hu hx with hx' | ⟨timedOut,now,rfl,hop⟩
  · exact .inl (somebodyDeclares_iff.mpr ⟨k,by omega,x,hx',hxd⟩)
  · have hleader := h.leader
    simp only [sectionAt, hop, Option.map_some, Option.getD_some] at hleader
    cases x with
    | setLeaderNodeId v => exact .inr (by simp [hleader, leaderAfter])
    | declareIfNoLeader =>
      cases hl : node.leaderNodeId with
      | some v => exact .inr (by simp [hleader, leaderAfter, hl])
      | none =>
        have hset := h.declared hop hl (x := .setLeaderNodeId rank) (by simp [declareVictory])
        exact .inl (somebodyDeclares_iff.mpr ⟨k,by omega,_,hset,rfl⟩)
    | _ => simp [toDeclare] at hxd

theorem leaderAfter_none {node : Server.Node n} (h : leaderAfter node op = none) :
    op = .restartElection ∨ node.leaderNodeId = none := by
  cases op with
  | restartElection => exact .inl rfl
  | handleMessage src m =>
    cases m with
    | victory => simp [leaderAfter] at h
    | _ => exact .inr h
  | setLeaderNodeId v => simp [leaderAfter] at h
  | _ => exact .inr h

/-- A leader is only forgotten by `broadcastElection`. -/
theorem Turned.forgets {node : Server.Node n} (h : Turned rank node a out)
    (hl : out.state.leaderNodeId = none) :
    node.leaderNodeId = none ∨ sectionAt node a = some .restartElection := by
  rw [h.leader] at hl
  cases hop : sectionAt node a with
  | none =>
    rw [hop] at hl
    exact .inl hl
  | some op =>
    rw [hop, Option.map_some, Option.getD_some] at hl
    rcases leaderAfter_none hl with rfl | hl
    · exact .inr rfl
    · exact .inl hl

theorem Turned.starts {node : Server.Node n} (h : Turned rank node .startElection out)
    (hu : Unborn node) : somebodyDeclares out.state = true := by
  have hthread : newThread rank node .startElection = some (triggerElection rank) := rfl
  have hborn := h.newborn hu hthread
  have hspawned : out.state.spawned = node.spawned + 1 := h.spawned
  refine somebodyDeclares_iff.mpr ⟨node.spawned,by omega,.declareIfNoLeader,?_,rfl⟩
  rw [hborn]
  simp [triggerElection]

/-- The rule that node `h` keeps from its start on. -/
def Attended (elected : Option (Fin n)) (h : Fin n) (es : Trace n) (node : Server.Node n) : Prop :=
  initialised elected h es = true → node.leaderNodeId = none → somebodyDeclares node = true

theorem step_attended {s t : Server.Cluster n} (hs : Attended elected h es (s.nodes h))
    (hu : Unborn (s.nodes h)) (hok : keepsDeclarer elected h es s l = true)
    (hat : StepAt s t h l) : Attended elected h (es ++ [(s,l)]) (t.nodes h) := by
  intro hinit hl
  rw [initialised_append, Bool.or_eq_true] at hinit
  cases hat with
  | other hm he =>
    have hold : initialised elected h es = true := by
      refine hinit.resolve_right ?_
      cases l with
      | act i a => cases a <;> simp [initialised]; exact hm
      | receive => simp [initialised]
    rw [he] at hl ⊢
    exact hs hold hl
  | act a out hturn he =>
    rw [he] at hl ⊢
    rcases hinit with hold | hnew
    · have hdeclares : somebodyDeclares (s.nodes h) = true := by
        rcases hturn.forgets hl with hnone | hreset
        · exact hs hold hnone
        · have hsection : sectionOf s (.act h a) = some .restartElection :=
            (sectionOf_act s h a).trans hreset
          simpa [keepsDeclarer, hold, mover, hsection] using hok
      exact (hturn.declares hu hdeclares).resolve_right (by simp [hl])
    · cases a with
      | startElection => exact hturn.starts hu
      | _ => simp [initialised] at hnew
  | receive tag src m hm htaken =>
    have hold : initialised elected h es = true :=
      hinit.resolve_right (by simp [initialised])
    have hframe := htaken.frame
    have hd : somebodyDeclares (t.nodes h) = somebodyDeclares (s.nodes h) := by
      simp [somebodyDeclares, hframe.spawned, hframe.detached]
    rw [hd]
    exact hs hold (hframe.leader ▸ hl)

theorem reach_attended
    (hr : TraceReach elected (fun es s l => keepsDeclarer elected h es s l = true) s es) :
    Attended elected h es (s.nodes h) := by
  induction hr using TraceReach.run with
  | start =>
    intro hinit hl
    have hnone : elected = none := hl
    simp [initialised, hnone] at hinit
  | step hr hok _ ih hs => exact step_attended ih (reach_unborn hr h) hok (step_at hs h)

/-- A node that is initialised and never resets its leader unattended has a thread that
comes to declare victory whenever it knows no leader. -/
theorem no_leaderless_standstill (elected : Option (Fin n)) (h : Fin n)
    (hr : TraceReach elected (fun es s l => keepsDeclarer elected h es s l = true) s es)
    (hinit : initialised elected h es = true) (hl : (s.nodes h).leaderNodeId = none) :
    somebodyDeclares (s.nodes h) = true :=
  reach_attended hr hinit hl

/-- `q` starts its election, and handles the ELECTION of `p` while it waits. -/
def resetWaiting (p q : Fin n) : List (Server.Move n) :=
  .act q .startElection::Move.sections q (.spawned 0) 1 0 ++
  .act p .startElection::Move.sections p (.spawned 0) 2 0 ++ Move.election p q ++
  Move.sections q .electionReceiver 1 0

/-- `q` is elected, and then handles the ELECTION of `p`. -/
def resetElected (p q : Fin n) : List (Server.Move n) :=
  .act q .startElection::Move.sections q (.spawned 0) 6 0 ++
  .act p .startElection::Move.sections p (.spawned 0) 2 0 ++ Move.election p q ++
  Move.sections q .electionReceiver 1 0

theorem resetWaiting_end : traceOutcome (n := 2) none (keepsDeclarer none 1) (resetWaiting 0 1)
    (fun r => (initialised none 1 r.2,(r.1.nodes 1).leaderNodeId)) = some (true,none) := by
  decide

theorem no_leaderless_standstill_resetWaiting : ∃ (s : Server.Cluster 2) (es : Trace 2),
    TraceReach none (fun es s l => keepsDeclarer none 1 es s l = true) s es ∧
    (s.nodes 1).leaderNodeId = none ∧ somebodyDeclares (s.nodes 1) = true := by
  obtain ⟨s,es,hr,h⟩ := Machine.exists_reach (fun _ _ _ h => h) resetWaiting_end
  obtain ⟨hinit,hl⟩ := Prod.mk.inj h
  exact ⟨s,es,hr,hl,no_leaderless_standstill none 1 hr hinit hl⟩

theorem resetElected_end : traceOutcome (n := 2) none (fun _ _ _ => true) (resetElected 0 1)
    (fun r => (initialised none 1 r.2,(r.1.nodes 1).leaderNodeId,resting (r.1.nodes 1))) =
      some (true,none,true) := by
  decide

/-- The highest node has been elected, forgets it for an ELECTION, and has no thread left. -/
theorem leaderless_standstill : ∃ (s : Server.Cluster 2) (es : Trace 2),
    TraceReach none Machine.free s es ∧ initialised none 1 es = true ∧
    (s.nodes 1).leaderNodeId = none ∧ resting (s.nodes 1) = true := by
  obtain ⟨s,es,hr,h⟩ := Machine.exists_reach (fun _ _ _ _ => trivial) resetElected_end
  simp only [Prod.mk.injEq] at h
  exact ⟨s,es,hr,h⟩

end Algorep.Proofs
