import Algorep.Proofs.RecoverySteps

namespace Algorep.Proofs
open Kit Program Program.Server

/-- `curRecoveryId` has been assigned and not been reset yet. -/
def RecoveryStage.assigned : RecoveryStage n → Bool
  | .starting _ | .unlocking => false
  | _ => true

/-- The ids of the STATE messages sent so far, by recovery thread. -/
def statesAfter (op : Option (Op n)) (sent : Nat → Option Int) : Nat → Option Int :=
  match op with
  | some (.send _ (.state id k _)) => Function.update sent k (some id)
  | _ => sent

/-- The id of the STATE that recovery thread `k` of node `i` has sent. -/
def stateSent (i : Fin n) (es : Trace n) : Nat → Option Int :=
  es.foldl (fun sent x => if mover x.2 = i then statesAfter (sectionOf x.1 x.2) sent else sent)
    (fun _ => none)

/-- A recovery assigns `curRecoveryId` only while nobody else's id is in it. -/
def assignsFree (s : Server.Cluster n) (l : Server.Move n) : Bool :=
  match sectionOf s l with
  | some (.startRecovery _ _) => (s.nodes (mover l)).curRecoveryId == -1
  | _ => true

/-- What `curRecoveryId`, and the STATE sent, are at each stage of a recovery. -/
def OwnId (cur : Int) (sent : Option Int) : RecoveryStage n → Prop
  | .starting _ => sent = none
  | .locking _ id | .reading _ id | .sending _ id _ => cur = id ∧ sent = none
  | .clearing => sent = some cur
  | .unlocking => True

/-- The recoveries of a node while each has started alone. -/
structure RecoveryIds (node : Server.Node n) (sent : Nat → Option Int) : Prop where
  threads : RecoveryThreads node
  only : ∀ k k' st st', AtStage node k st → AtStage node k' st' → st.assigned = true →
    st'.assigned = true → k = k'
  own : ∀ k st, AtStage node k st → OwnId node.curRecoveryId (sent k) st
  busy : node.curRecoveryId = -1 ↔ ∀ k st, AtStage node k st → st.assigned = false
  fresh : ∀ k, node.spawned ≤ k → sent k = none

theorem RecoveryIds.start (elected : Option (Fin n)) (i : Fin n) :
    RecoveryIds (initialNode elected i) (fun _ => none) := by
  have hnone : ∀ k st, ¬ AtStage (initialNode elected i) k st :=
    fun k st hat => sections_ne_nil k st hat.symm
  exact ⟨.start elected i,fun k _ st _ hat => absurd hat (hnone k st),
    fun k st hat => absurd hat (hnone k st),
    iff_of_true rfl (fun k st hat => absurd hat (hnone k st)),fun _ _ => rfl⟩

theorem OwnId.unassigned {st : RecoveryStage n} (h : OwnId cur sent st) (hst : st.assigned = false) :
    OwnId cur' sent st := by
  cases st <;> simp_all [RecoveryStage.assigned, OwnId]

theorem statesAfter_quiet (h : ∀ x, op = some x → recoverySection x = false) :
    statesAfter op sent = sent := by
  unfold statesAfter
  split
  · rename_i id k state
    have hrec := h _ rfl
    simp [recoverySection] at hrec
  · rfl

section Step
variable {node x : Server.Node n}

theorem RecoveryIds.assigned_busy (h : RecoveryIds node sent) (hat : AtStage node k st)
    (hst : st.assigned = true) : node.curRecoveryId ≠ -1 := by
  intro hcur
  simp [h.busy.mp hcur k st hat] at hst

/-- A recovery that goes on from one stage to the next, with its own id in `curRecoveryId`. -/
theorem RecoveryIds.goes_on (h : RecoveryIds node sent) (hx : RecoveryThreads x)
    (hat : AtStage node k st) (hst : st.assigned = true) (hat' : AtStage x k st')
    (hst' : st'.assigned = true) (hcur : x.curRecoveryId = node.curRecoveryId)
    (hothers : ∀ k', k' ≠ k → ∀ st', AtStage x k' st' ↔ AtStage node k' st')
    (hsent : ∀ k', k' ≠ k → sent' k' = sent k') (hown : OwnId node.curRecoveryId (sent' k) st')
    (hspawned : node.spawned ≤ x.spawned) : RecoveryIds x sent' := by
  have hlt := hat.lt_spawned h.threads.unborn
  refine ⟨hx,?_,?_,iff_of_false ?_ ?_,?_⟩
  · intro k₁ k₂ st₁ st₂ h₁ h₂ hs₁ hs₂
    have hk : ∀ k₀ st₀, AtStage x k₀ st₀ → st₀.assigned = true → k₀ = k := by
      intro k₀ st₀ h₀ hs₀
      by_contra hne
      exact hne (h.only k₀ k _ _ ((hothers k₀ hne st₀).mp h₀) hat hs₀ hst)
    exact (hk k₁ st₁ h₁ hs₁).trans (hk k₂ st₂ h₂ hs₂).symm
  · intro k₀ st₀ h₀
    rw [hcur]
    by_cases hk : k₀ = k
    · subst hk
      exact h₀.unique hat' ▸ hown
    · rw [hsent k₀ hk]
      exact h.own k₀ st₀ ((hothers k₀ hk st₀).mp h₀)
  · rw [hcur]
    exact h.assigned_busy hat hst
  · intro hall
    simp [hall k st' hat'] at hst'
  · intro k₀ hk₀
    rw [hsent k₀ (by omega)]
    exact h.fresh k₀ (by omega)

/-- A recovery appears, or ends, without an id in `curRecoveryId`. -/
theorem RecoveryIds.idles (h : RecoveryIds node sent) (hx : RecoveryThreads x)
    (hbefore : ∀ st, AtStage node k st → st.assigned = false)
    (hafter : ∀ st, AtStage x k st → st.assigned = false ∧ OwnId node.curRecoveryId (sent k) st)
    (hcur : x.curRecoveryId = node.curRecoveryId)
    (hothers : ∀ k', k' ≠ k → ∀ st', AtStage x k' st' ↔ AtStage node k' st')
    (hspawned : node.spawned ≤ x.spawned) : RecoveryIds x sent := by
  have hold : ∀ k₀ st₀, AtStage x k₀ st₀ → st₀.assigned = true → AtStage node k₀ st₀ := by
    intro k₀ st₀ h₀ hs₀
    by_cases hk : k₀ = k
    · subst hk
      simp [(hafter st₀ h₀).1] at hs₀
    · exact (hothers k₀ hk st₀).mp h₀
  refine ⟨hx,?_,?_,?_,fun k₀ hk₀ => h.fresh k₀ (by omega)⟩
  · intro k₁ k₂ st₁ st₂ h₁ h₂ hs₁ hs₂
    exact h.only k₁ k₂ st₁ st₂ (hold k₁ st₁ h₁ hs₁) (hold k₂ st₂ h₂ hs₂) hs₁ hs₂
  · intro k₀ st₀ h₀
    rw [hcur]
    by_cases hk : k₀ = k
    · subst hk
      exact (hafter st₀ h₀).2
    · exact h.own k₀ st₀ ((hothers k₀ hk st₀).mp h₀)
  · rw [hcur, h.busy]
    constructor
    · intro hall k₀ st₀ h₀
      by_contra hne
      have hs₀ : st₀.assigned = true := by simpa using hne
      exact hne (hall k₀ st₀ (hold k₀ st₀ h₀ hs₀))
    · intro hall k₀ st₀ h₀
      by_cases hk : k₀ = k
      · subst hk
        exact hbefore st₀ h₀
      · exact hall k₀ st₀ ((hothers k₀ hk st₀).mpr h₀)

/-- A recovery whose stage is set starts or ends alone. -/
theorem RecoveryIds.alone (h : RecoveryIds node sent) (hx : RecoveryThreads x)
    (hat' : AtStage x k st') (hown : OwnId x.curRecoveryId (sent k) st')
    (hcur : x.curRecoveryId = -1 ↔ st'.assigned = false)
    (hidle : ∀ k', k' ≠ k → ∀ st', AtStage node k' st' → st'.assigned = false)
    (hothers : ∀ k', k' ≠ k → ∀ st', AtStage x k' st' ↔ AtStage node k' st')
    (hspawned : node.spawned ≤ x.spawned) : RecoveryIds x sent := by
  have hnone : ∀ k₀, k₀ ≠ k → ∀ st₀, AtStage x k₀ st₀ → st₀.assigned = false :=
    fun k₀ hk st₀ h₀ => hidle k₀ hk st₀ ((hothers k₀ hk st₀).mp h₀)
  refine ⟨hx,?_,?_,?_,fun k₀ hk₀ => h.fresh k₀ (by omega)⟩
  · intro k₁ k₂ st₁ st₂ h₁ h₂ hs₁ hs₂
    have hk : ∀ k₀ st₀, AtStage x k₀ st₀ → st₀.assigned = true → k₀ = k := by
      intro k₀ st₀ h₀ hs₀
      by_contra hne
      simp [hnone k₀ hne st₀ h₀] at hs₀
    exact (hk k₁ st₁ h₁ hs₁).trans (hk k₂ st₂ h₂ hs₂).symm
  · intro k₀ st₀ h₀
    by_cases hk : k₀ = k
    · subst hk
      exact h₀.unique hat' ▸ hown
    · exact (h.own k₀ st₀ ((hothers k₀ hk st₀).mp h₀)).unassigned (hnone k₀ hk st₀ h₀)
  · rw [hcur]
    constructor
    · intro hst k₀ st₀ h₀
      by_cases hk : k₀ = k
      · subst hk
        exact h₀.unique hat' ▸ hst
      · exact hnone k₀ hk st₀ h₀
    · exact fun hall => hall k st' hat'

theorem RecoveryIds.act (h : RecoveryIds node sent) (ha : Server.act rank node a = some out)
    (hg : ∀ dst k, sectionAt node a = some (.startRecovery dst k) → node.curRecoveryId = -1) :
    RecoveryIds out.state (statesAfter (sectionAt node a) sent) := by
  have hx := h.threads.act ha
  have hspawned := (turned_of_turns (turns_of_act ha)).spawned_le
  cases recoveryTurn_of_act h.threads ha with
  | recovery k st after timedOut now ha' hat hstep hafter hothers hclient =>
    have hsection : sectionAt node a = (st.sections k).head? := by
      rw [ha', ← show _ = st.sections k from hat]
      rfl
    generalize hc : out.state.curRecoveryId = cur at hstep
    generalize out.state.clientConnMutex = mutex at hstep
    cases hstep with
    | starts dst now' =>
      have hcur := hg dst k hsection
      have hat' : AtStage out.state k (.locking dst now') := hafter
      rw [hsection]
      refine h.alone hx hat' ?_ ?_ ?_ hothers hspawned
      · rw [hc]
        exact ⟨rfl,h.own k _ hat⟩
      · rw [hc]
        simp [RecoveryStage.assigned]
      · exact fun k' _ st' hat' => h.busy.mp hcur k' st' hat'
    | locks dst id hfree =>
      have hat' : AtStage out.state k (.reading dst id) := hafter
      have hown := h.own k _ hat
      rw [hsection]
      exact h.goes_on hx hat rfl hat' rfl hc hothers (fun _ _ => rfl) hown hspawned
    | reads dst id =>
      have hat' : AtStage out.state k (.sending dst id node.log) := hafter
      have hown := h.own k _ hat
      rw [hsection]
      exact h.goes_on hx hat rfl hat' rfl hc hothers (fun _ _ => rfl) hown hspawned
    | sends dst id state =>
      have hat' : AtStage out.state k .clearing := hafter
      have hown := h.own k _ hat
      rw [hsection]
      refine h.goes_on hx hat rfl hat' rfl hc hothers ?_ ?_ hspawned
      · intro k' hk'
        simp [statesAfter, RecoveryStage.sections, hk']
      · simp [statesAfter, RecoveryStage.sections, OwnId, hown.1]
    | clears =>
      have hat' : AtStage out.state k .unlocking := hafter
      rw [hsection]
      refine h.alone hx hat' trivial ?_ ?_ hothers hspawned
      · rw [hc]
        simp [RecoveryStage.assigned]
      · intro k' hk' st' hat'
        by_contra hne
        exact hk' (h.only k' k st' _ hat' hat (by simpa using hne) rfl)
    | unlocks =>
      rw [hsection]
      refine h.idles hx ?_ ?_ hc hothers hspawned
      · exact fun st' hat' => hat'.unique hat ▸ rfl
      · intro st' hat'
        exact absurd (hafter.symm.trans hat').symm (sections_ne_nil k st')
  | detected dst ha' hidle hafter hothers hcur hclient hmutex =>
    have hnone : sectionAt node a = none := by simp [ha', sectionAt]
    rw [hnone]
    refine h.idles hx ?_ ?_ hcur hothers hspawned
    · exact h.busy.mp hidle _
    · intro st hat
      rw [hat.unique hafter]
      exact ⟨rfl,h.fresh _ (Nat.le_refl _)⟩
  | other hsection hdetect hcalm hclient =>
    rw [statesAfter_quiet hsection]
    refine ⟨hx,?_,?_,?_,fun k hk => h.fresh k (by omega)⟩
    · intro k k' st st' hat hat'
      exact h.only k k' st st' ((hcalm.kept k st).mp hat) ((hcalm.kept k' st').mp hat')
    · intro k st hat
      rw [hcalm.cur]
      exact h.own k st ((hcalm.kept k st).mp hat)
    · rw [hcalm.cur, h.busy]
      simp only [hcalm.kept]

theorem RecoveryIds.accept (h : RecoveryIds node sent)
    (ha : Server.accept rank node tag src m = some x) : RecoveryIds x sent := by
  have hstill := unmoved_of_accept ha
  have hspawned : x.spawned = node.spawned := (taken_of_accept ha).frame.spawned
  refine ⟨h.threads.accept ha,?_,?_,?_,?_⟩
  · intro k k' st st' hat hat'
    exact h.only k k' st st' ((hstill.kept k st).mp hat) ((hstill.kept k' st').mp hat')
  · intro k st hat
    rw [hstill.cur]
    exact h.own k st ((hstill.kept k st).mp hat)
  · rw [hstill.cur, h.busy]
    simp only [hstill.kept]
  · rw [hspawned]
    exact h.fresh

end Step

theorem stateSent_append (i : Fin n) (es : Trace n) (s : Server.Cluster n) (l : Server.Move n) :
    stateSent i (es ++ [(s,l)]) = if mover l = i then statesAfter (sectionOf s l) (stateSent i es)
      else stateSent i es := by
  simp [stateSent]

theorem step_recoveryIds {s t : Server.Cluster n} (h : (Server.process elected).Step s l t e)
    (hids : ∀ i, RecoveryIds (s.nodes i) (stateSent i es)) (hg : assignsFree s l = true)
    (i : Fin n) : RecoveryIds (t.nodes i) (stateSent i (es ++ [(s,l)])) := by
  rw [stateSent_append]
  cases h with
  | act j a out ho =>
    by_cases hj : j = i
    · subst hj
      have ho' : Server.act j (s.nodes j) a = some out := ho
      rw [LaneNet.commit_self, if_pos (by rfl), sectionOf_act]
      refine (hids j).act ho' ?_
      intro dst k hop
      rw [← sectionOf_act] at hop
      simpa [assignsFree, hop, mover] using hg
    · rw [LaneNet.commit_other _ _ _ (fun he => hj he.symm), if_neg (by exact hj)]
      exact hids i
  | receive tag src dst m rest x hc hx =>
    have hnone : sectionOf s (.receive tag src dst : Server.Move n) = none := rfl
    have hsame : (if mover (.receive tag src dst : Server.Move n) = i then
        statesAfter (none : Option (Op n)) (stateSent i es) else stateSent i es) = stateSent i es := by
      split <;> rfl
    rw [hnone, hsame]
    by_cases hj : i = dst
    · subst hj
      rw [LaneNet.take_self]
      have hx' : Server.accept i (s.nodes i) tag src m = some x := hx
      exact (hids i).accept hx'
    · rw [LaneNet.take_other _ _ _ _ _ hj]
      exact hids i

theorem reach_recoveryIds {s : Server.Cluster n} {es : Trace n}
    (hr : TraceReach elected (fun _ s l => assignsFree s l = true) s es) (i : Fin n) :
    RecoveryIds (s.nodes i) (stateSent i es) := by
  induction hr using TraceReach.run generalizing i with
  | start => exact RecoveryIds.start elected i
  | step hr hok hs0 ih hs => exact step_recoveryIds hs ih hok i

/-- At most one recovery of the node is between its assignment of `curRecoveryId` and the
reset, and its own id is there from its STATE to the reset. -/
structure OneRecovery (node : Server.Node n) (sent : Nat → Option Int) : Prop where
  single : ∀ t t', .clearRecoveryId ∈ node.threads t → .clearRecoveryId ∈ node.threads t' → t = t'
  own : ∀ k id, .clearRecoveryId ∈ node.threads (.spawned k) → sent k = some id →
    node.curRecoveryId = id

/-- Between the assignment and the reset, the reset is still to be run. -/
theorem clear_mem (k : Nat) (st : RecoveryStage n) :
    .clearRecoveryId ∈ st.sections k ↔ st.assigned = true := by
  cases st <;> simp [RecoveryStage.sections, handleNodeRecovery, pausedRecovery,
    RecoveryStage.assigned]

theorem RecoveryThreads.clearing {node : Server.Node n} (h : RecoveryThreads node)
    (ht : .clearRecoveryId ∈ node.threads t) :
    ∃ k st, t = .spawned k ∧ AtStage node k st ∧ st.assigned = true := by
  obtain ⟨k,st,rfl,hat⟩ := h.staged t _ ht rfl
  unfold AtStage at hat
  rw [hat] at ht
  exact ⟨k,st,rfl,hat,(clear_mem k st).mp ht⟩

theorem RecoveryIds.one {node : Server.Node n} (h : RecoveryIds node sent) :
    OneRecovery node sent := by
  constructor
  · intro t t' ht ht'
    obtain ⟨k,st,rfl,hat,hst⟩ := h.threads.clearing ht
    obtain ⟨k',st',rfl,hat',hst'⟩ := h.threads.clearing ht'
    rw [h.only k k' st st' hat hat' hst hst']
  · intro k id ht hid
    obtain ⟨k',st,hk,hat,hst⟩ := h.threads.clearing ht
    cases hk
    have hown := h.own k st hat
    cases st <;> simp [RecoveryStage.assigned, OwnId, hid] at hst hown
    exact hown.symm

/-- A second recovery that assigns `curRecoveryId` joins the first. -/
theorem assigns_taken {s t : Server.Cluster n} (h : (Server.process elected).Step s l t e)
    (hids : RecoveryIds (s.nodes (mover l)) sent) (hg : assignsFree s l = false) :
    ¬ OneRecovery (t.nodes (mover l)) sent' := by
  intro hone
  cases h with
  | receive => simp [assignsFree, sectionOf] at hg
  | act i a out ho =>
    have ho' : Server.act i (s.nodes i) a = some out := ho
    simp only [mover, LaneNet.commit_self] at hone hids
    unfold assignsFree at hg
    rw [sectionOf_act] at hg
    split at hg
    case h_2 => contradiction
    rename_i dst k₀ hop
    obtain ⟨k',st',hat',hst'⟩ : ∃ k st, AtStage (s.nodes i) k st ∧ st.assigned = true := by
      by_contra hno
      have hcur := hids.busy.mpr (by simpa using hno)
      simp [mover, hcur] at hg
    cases recoveryTurn_of_act hids.threads ho' with
    | recovery k st after timedOut now ha hat hstep hafter hothers hclient =>
      have hsections : (st.sections k).head? = some (.startRecovery dst k₀) := by
        rw [← hop, ha, ← show _ = st.sections k from hat]
        rfl
      generalize out.state.curRecoveryId = cur at hstep
      generalize out.state.clientConnMutex = mutex at hstep
      cases hstep with
      | starts dst' now' =>
        have hne : k' ≠ k := by
          rintro rfl
          rw [hat'.unique hat] at hst'
          simp [RecoveryStage.assigned] at hst'
        have hmem : .clearRecoveryId ∈ out.state.threads (.spawned k) := by
          rw [hafter]
          exact (clear_mem k (.locking dst' now')).mpr rfl
        have hmem' : .clearRecoveryId ∈ out.state.threads (.spawned k') := by
          rw [(hothers k' hne st').mpr hat']
          exact (clear_mem k' st').mpr hst'
        have heq := hone.single _ _ hmem hmem'
        simp only [ThreadId.spawned.injEq] at heq
        exact hne heq.symm
      | _ => simp [RecoveryStage.sections, pausedRecovery] at hsections
    | detected dst' ha => simp [ha, sectionAt] at hop
    | other hsection =>
      have hrec := hsection _ hop
      simp [recoverySection] at hrec

/-- A node has one recovery at a time, with its own id, in every run in which recoveries
assign `curRecoveryId` only while it is free. An assignment that finds it taken breaks this
at once. -/
theorem one_recovery_at_a_time (elected : Option (Fin n)) :
    (∀ s es, TraceReach elected (fun _ s l => assignsFree s l = true) s es →
      ∀ i, OneRecovery (s.nodes i) (stateSent i es)) ∧
    ∀ s es l t, TraceReach elected (fun _ s l => assignsFree s l = true) s es →
      assignsFree s l = false →
      (Server.process elected).network.traced.step s l = some (t,[(s,l)]) →
      ¬ OneRecovery (t.nodes (mover l)) (stateSent (mover l) (es ++ [(s,l)])) := by
  constructor
  · exact fun s es hr i => (reach_recoveryIds hr i).one
  · intro s es l t hr hg hs
    obtain ⟨-,e,he⟩ := Machine.traced_step hs
    exact assigns_taken (LaneProcess.step_of_eq he) (reach_recoveryIds hr (mover l)) hg

/-- A leader marks both its peers dead and hears from both again before it starts to
recover either. The first recovery has sent its STATE. -/
def twoRecoveries (L p q : Fin n) : List (Server.Move n) :=
  Move.marksDead L p 0 ++ Move.marksDead L q 1 ++
  [.act L (.detectRecovery p),.act L (.detectRecovery q)] ++
  Move.sections L (.spawned 2) 4 5

/-- What node `i` holds of two recoveries. -/
def twoThreads (i : Fin n) (k k' : Nat) (r : Server.Cluster n × Trace n) :
    Bool × Bool × Option Int × Int :=
  ((r.1.nodes i).threads (.spawned k) |>.contains .clearRecoveryId,
    (r.1.nodes i).threads (.spawned k') |>.contains .clearRecoveryId,
    stateSent i r.2 k,(r.1.nodes i).curRecoveryId)

theorem twoRecoveries_first : traceOutcome (some (2 : Fin 3)) (fun _ => assignsFree)
    (twoRecoveries 2 0 1) (twoThreads 2 2 3) = some (true,false,some 5,5) := by
  decide

theorem twoRecoveries_second : traceOutcome (some (2 : Fin 3)) (fun _ _ _ => true)
    (twoRecoveries 2 0 1 ++ Move.sections 2 (.spawned 3) 1 6) (twoThreads 2 2 3) =
      some (true,true,some 5,6) := by
  decide

theorem one_recovery_at_a_time_first : ∃ (s : Server.Cluster 3) (es : Trace 3),
    TraceReach (some 2) (fun _ s l => assignsFree s l = true) s es ∧
    stateSent 2 es 2 = some 5 ∧ OneRecovery (s.nodes 2) (stateSent 2 es) := by
  obtain ⟨s,es,hr,h⟩ := Machine.exists_reach (fun _ _ _ h => h) twoRecoveries_first
  simp only [twoThreads, Prod.mk.injEq] at h
  exact ⟨s,es,hr,h.2.2.1,(one_recovery_at_a_time (some 2)).1 s es hr 2⟩

/-- Two recoveries have assigned `curRecoveryId`, and the STATE of the first is not the one
it names. -/
theorem two_recoveries_at_a_time : ∃ (s : Server.Cluster 3) (es : Trace 3),
    TraceReach (some 2) Machine.free s es ∧ ¬ OneRecovery (s.nodes 2) (stateSent 2 es) ∧
    stateSent 2 es 2 = some 5 ∧ (s.nodes 2).curRecoveryId = 6 := by
  obtain ⟨s,es,hr,h⟩ := Machine.exists_reach (fun _ _ _ _ => trivial) twoRecoveries_second
  simp only [twoThreads, Prod.mk.injEq, List.contains_iff_mem] at h
  obtain ⟨h2,h3,hsent,hcur⟩ := h
  refine ⟨s,es,hr,?_,hsent,hcur⟩
  intro hone
  have heq := hone.single _ _ h2 h3
  simp at heq

end Algorep.Proofs
