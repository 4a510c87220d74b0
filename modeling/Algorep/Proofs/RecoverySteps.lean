import Algorep.Proofs.ElectionSteps

namespace Algorep.Proofs
open Kit Program Program.Server

/-- How far a thread of `handleNodeRecovery` is. -/
inductive RecoveryStage (n : Nat)
  | starting (dst : Fin n)
  | locking (dst : Fin n) (id : Int)
  | reading (dst : Fin n) (id : Int)
  | sending (dst : Fin n) (id : Int) (state : List String)
  | clearing
  | unlocking

/-- What thread `k` still has to run. -/
def RecoveryStage.sections (k : Nat) : RecoveryStage n → List (Op n)
  | .starting dst => handleNodeRecovery dst k
  | .locking dst id => pausedRecovery dst id k
  | .reading dst id => [.readState dst id k,.clearRecoveryId,.unlockClientConn]
  | .sending dst id state => [.send dst (.state id k state),.clearRecoveryId,.unlockClientConn]
  | .clearing => [.clearRecoveryId,.unlockClientConn]
  | .unlocking => [.unlockClientConn]

/-- The sections of `handleNodeRecovery`. -/
def recoverySection : Op n → Bool
  | .startRecovery _ _ | .lockClientConn _ | .readState _ _ _ | .clearRecoveryId
  | .unlockClientConn | .send _ (.state _ _ _) => true
  | _ => false

/-- Thread `k` is a recovery at a stage. -/
def AtStage (node : Server.Node n) (k : Nat) (st : RecoveryStage n) : Prop :=
  node.threads (.spawned k) = st.sections k

/-- Sections of a recovery are run by recovery threads only. -/
structure RecoveryThreads (node : Server.Node n) : Prop where
  unborn : Unborn node
  staged : ∀ t, ∀ x ∈ node.threads t, recoverySection x = true → ∃ k st, t = .spawned k ∧ AtStage node k st

/-- What a section makes of a recovery thread, of `curRecoveryId` and of the lock. -/
inductive StageStep (node : Server.Node n) (k : Nat) : RecoveryStage n → Option (RecoveryStage n) →
    Int → Option Holder → Prop
  | starts (dst : Fin n) (now : Nat) :
      StageStep node k (.starting dst) (some (.locking dst now)) now node.clientConnMutex
  | locks (dst : Fin n) (id : Int) (hfree : node.clientConnMutex = none) :
      StageStep node k (.locking dst id) (some (.reading dst id)) node.curRecoveryId
        (some (.recovery k))
  | reads (dst : Fin n) (id : Int) :
      StageStep node k (.reading dst id) (some (.sending dst id node.log)) node.curRecoveryId
        node.clientConnMutex
  | sends (dst : Fin n) (id : Int) (state : List String) :
      StageStep node k (.sending dst id state) (some .clearing) node.curRecoveryId
        node.clientConnMutex
  | clears : StageStep node k .clearing (some .unlocking) (-1) node.clientConnMutex
  | unlocks : StageStep node k .unlocking none node.curRecoveryId none

/-- A client is connected and its session has begun. -/
def inSession : Client → Bool
  | .accepting | .connected => false
  | _ => true

/-- What an action makes of the client's session and of the lock. -/
inductive ClientTurn (node x : Server.Node n) (a : Server.Action n) : Prop
  | same (ha : a ≠ .disconnect) (hmutex : x.clientConnMutex = node.clientConnMutex)
      (hclient : inSession x.client = inSession node.client) : ClientTurn node x a
  | locks (ha : a ≠ .disconnect) (hbefore : inSession node.client = false)
      (hfree : node.clientConnMutex = none) (hafter : x.client = .session)
      (hmutex : x.clientConnMutex = some .client) : ClientTurn node x a
  | unlocks (ha : a = .disconnect) (hbefore : node.client = .session)
      (hafter : x.client = .accepting) (hmutex : x.clientConnMutex = none) : ClientTurn node x a

/-- Recoveries are left alone. -/
structure Calm (node x : Server.Node n) : Prop where
  kept : ∀ k st, AtStage x k st ↔ AtStage node k st
  cur : x.curRecoveryId = node.curRecoveryId

/-- What an action does to the recoveries of a node. -/
inductive RecoveryTurn (node x : Server.Node n) (a : Server.Action n) : Prop
  | recovery (k : Nat) (st : RecoveryStage n) (after : Option (RecoveryStage n)) (timedOut : Bool)
      (now : Nat) (ha : a = .run (.spawned k) timedOut now) (hat : AtStage node k st)
      (hstep : StageStep node k st after x.curRecoveryId x.clientConnMutex)
      (hafter : x.threads (.spawned k) = (after.map (RecoveryStage.sections k)).getD [])
      (hothers : ∀ k', k' ≠ k → ∀ st', AtStage x k' st' ↔ AtStage node k' st')
      (hclient : x.client = node.client) : RecoveryTurn node x a
  | detected (dst : Fin n) (ha : a = .detectRecovery dst) (hidle : node.curRecoveryId = -1)
      (hafter : AtStage x node.spawned (.starting dst))
      (hothers : ∀ k, k ≠ node.spawned → ∀ st, AtStage x k st ↔ AtStage node k st)
      (hcur : x.curRecoveryId = node.curRecoveryId) (hclient : x.client = node.client)
      (hmutex : x.clientConnMutex = node.clientConnMutex) : RecoveryTurn node x a
  | other (hsection : ∀ op, sectionAt node a = some op → recoverySection op = false)
      (hdetect : ∀ dst, a ≠ .detectRecovery dst) (hcalm : Calm node x)
      (hclient : ClientTurn node x a) : RecoveryTurn node x a

theorem sections_recovery (k : Nat) (st : RecoveryStage n) :
    ∀ x ∈ st.sections k, recoverySection x = true := by
  cases st <;> simp [RecoveryStage.sections, handleNodeRecovery, pausedRecovery, recoverySection]

theorem sections_ne_nil (k : Nat) (st : RecoveryStage n) : st.sections k ≠ [] := by
  cases st <;> simp [RecoveryStage.sections, handleNodeRecovery, pausedRecovery]

theorem sections_injective {st st' : RecoveryStage n} (h : st.sections k = st'.sections k) :
    st = st' := by
  cases st <;> cases st' <;>
    simp_all [RecoveryStage.sections, handleNodeRecovery, pausedRecovery]

theorem AtStage.unique {node : Server.Node n} (h : AtStage node k st) (h' : AtStage node k st') :
    st = st' :=
  sections_injective (h.symm.trans h')

theorem AtStage.lt_spawned {node : Server.Node n} (h : AtStage node k st) (hu : Unborn node) :
    k < node.spawned := by
  by_contra hge
  exact sections_ne_nil k st (h.symm.trans (hu k (Nat.le_of_not_lt hge)))

/-- Only a recovery leads to sections of a recovery. -/
theorem Continues.ofRecovery {node : Server.Node n} (h : Continues rank node op x)
    (hx : recoverySection x = true) : recoverySection op = true := by
  cases h with
  | answered src hx' | again hl hx' =>
    rcases mem_broadcastElection hx' with rfl | ⟨j,rfl⟩ <;> simp [Proofs.recoverySection] at hx
  | declared hl hx' =>
    rcases List.mem_append.mp hx' with hx' | hx'
    · rcases mem_declareVictory hx' with ⟨j,rfl⟩ | rfl <;> simp [Proofs.recoverySection] at hx
    · rw [List.mem_singleton.mp hx'] at hx
      simp [Proofs.recoverySection] at hx
  | recovered src nodeId hx' =>
    rcases mem_enableComm hx' with rfl | rfl <;> simp [Proofs.recoverySection] at hx
  | checked src b k hx' =>
    rcases mem_updateChecked hx' with ⟨j,-,rfl⟩ | hx' | rfl
    · simp [Proofs.recoverySection] at hx
    · rcases mem_enableComm hx' with rfl | rfl <;> simp [Proofs.recoverySection] at hx
    · simp [Proofs.recoverySection] at hx
  | installed | updated => simp [Proofs.recoverySection] at hx
  | recovering | read => rfl

theorem exec_calm {node : Server.Node n} (h : exec rank node timedOut now op = some (ops,out))
    (hop : recoverySection op = false) : out.state.curRecoveryId = node.curRecoveryId ∧
      out.state.clientConnMutex = node.clientConnMutex := by
  cases op with
  | handleMessage src m =>
    cases m with
    | consensus packet => simp [exec, handleMessage] at h
    | alive =>
      simp only [exec, handleMessage, Option.some.injEq, Prod.mk.injEq] at h
      rcases h with ⟨-,rfl⟩
      by_cases hs : rank < src <;> simp [hs, Server.Node.spawn, Server.Node.setThread]
    | election | victory | state | stateUpdated | recovered =>
      simp only [exec, handleMessage, handleState, Option.some.injEq, Prod.mk.injEq] at h
      rcases h with ⟨-,rfl⟩
      exact ⟨rfl,rfl⟩
  | waitForVictory =>
    simp only [exec, Option.ite_none_left_eq_some, Option.some.injEq, Prod.mk.injEq] at h
    rcases h with ⟨-,-,rfl⟩
    exact ⟨rfl,rfl⟩
  | electIfLeader j =>
    simp only [exec, Option.some.injEq, Prod.mk.injEq] at h
    rcases h with ⟨-,rfl⟩
    by_cases hl : node.leaderNodeId = some j <;> simp [hl, Server.Node.spawn, Server.Node.setThread]
  | lockClientConn | startRecovery | readState | clearRecoveryId | unlockClientConn =>
    simp [recoverySection] at hop
  | send | restartElection | declareIfNoLeader | enableClientConn | setLeaderNodeId
    | setAliveReceived | broadcastIfNoLeader | setIsAlive | setNodeStatus | updateChecked =>
    simp only [exec, Option.some.injEq, Prod.mk.injEq] at h
    rcases h with ⟨-,rfl⟩
    exact ⟨rfl,rfl⟩

section Turn
variable {node : Server.Node n}

/-- The thread that runs another section is not a recovery. -/
theorem RecoveryThreads.other (h : RecoveryThreads node) (ht : node.threads t = op::rest)
    (hop : recoverySection op = false) : ∀ x ∈ node.threads t, recoverySection x = false := by
  intro x hx
  by_contra hne
  obtain ⟨k,st,rfl,hat⟩ := h.staged t x hx (by simpa using hne)
  have hrec := sections_recovery k st op (by rw [← hat, ht]; exact List.mem_cons_self)
  simp [hop] at hrec

/-- Only the detector starts a recovery. -/
theorem newThread_recovery (hn : newThread rank node a = some ops) (hx : x ∈ ops)
    (hrec : recoverySection x = true) : ∃ dst, a = .detectRecovery dst := by
  rcases newThread_cases hn with rfl | rfl | ⟨j,-,rfl⟩ | ⟨j,hj,-⟩
  · cases aliveWait_opening hx with
    | recover => simp [aliveWait] at hx
    | _ => simp [recoverySection] at hrec
  · cases triggerElection_opening hx with
    | recover => simp [triggerElection, broadcastElection] at hx
    | _ => simp [recoverySection] at hrec
  · simp only [handleNodeFailure, List.mem_cons, List.not_mem_nil, or_false] at hx
    rcases hx with rfl | rfl | rfl <;> simp [recoverySection] at hrec
  · exact ⟨j,hj⟩

/-- An action that runs another section, and detects no recovery, keeps every stage. -/
theorem stages_kept (h : RecoveryThreads node) (hturn : Turned rank node a out)
    (hsection : ∀ op, sectionAt node a = some op → recoverySection op = false)
    (ha : ∀ dst, a ≠ .detectRecovery dst) (k : Nat) (st : RecoveryStage n) :
    AtStage out.state k st ↔ AtStage node k st := by
  have hthread := hturn.thread (.spawned k)
  unfold AtStage
  generalize out.state.threads (.spawned k) = x at hthread
  cases hthread with
  | same => exact Iff.rfl
  | next timedOut now op rest ops out' ha' ht he =>
    have hop := hsection op (by simp [ha', sectionAt, ht])
    have hnot : ∀ y ∈ op::rest, recoverySection y = false := ht ▸ h.other ht hop
    have hnew : ∀ y ∈ ops ++ rest, recoverySection y = false := by
      intro y hy
      rcases List.mem_append.mp hy with hy | hy
      · by_contra hne
        have hrec := (exec_continues he y hy).ofRecovery (by simpa using hne)
        simp [hop] at hrec
      · exact hnot y (List.mem_cons_of_mem _ hy)
    have hno : ∀ l : List (Op n), (∀ y ∈ l, recoverySection y = false) → l ≠ st.sections k := by
      rintro l hl rfl
      obtain ⟨y,hy⟩ := List.exists_mem_of_ne_nil _ (sections_ne_nil k st)
      have hrec := sections_recovery k st y hy
      simp [hl y hy] at hrec
    rw [ht]
    exact iff_of_false (hno _ hnew) (hno _ hnot)
  | first ops ha' ht hn =>
    have hold : node.threads (.spawned k) = [] := by
      rw [ht]
      exact h.unborn _ (Nat.le_refl _)
    rw [hold]
    refine iff_of_false ?_ (sections_ne_nil k st).symm
    intro he
    obtain ⟨y,hy⟩ := List.exists_mem_of_ne_nil _ (sections_ne_nil k st)
    have hrec := sections_recovery k st y hy
    rw [← he] at hy
    obtain ⟨j,hj⟩ := newThread_recovery hn hy hrec
    exact ha j hj

/-- The section a recovery runs takes its thread to the next stage. -/
theorem stageStep_of_exec (hsections : st.sections k = op::rest)
    (he : exec rank node timedOut now op = some (ops,out)) :
    ∃ after, StageStep node k st after out.state.curRecoveryId out.state.clientConnMutex ∧
      ops ++ rest = (after.map (RecoveryStage.sections k)).getD [] := by
  cases st with
  | starting dst =>
    simp only [RecoveryStage.sections, handleNodeRecovery, List.cons.injEq] at hsections
    obtain ⟨rfl,rfl⟩ := hsections
    simp only [exec, Option.some.injEq, Prod.mk.injEq] at he
    obtain ⟨rfl,rfl⟩ := he
    exact ⟨_,.starts dst now,rfl⟩
  | locking dst id =>
    simp only [RecoveryStage.sections, pausedRecovery, List.cons.injEq] at hsections
    obtain ⟨rfl,rfl⟩ := hsections
    simp only [exec] at he
    split at he
    · rename_i hfree
      simp only [Option.some.injEq, Prod.mk.injEq] at he
      obtain ⟨rfl,rfl⟩ := he
      exact ⟨_,.locks dst id hfree,rfl⟩
    · contradiction
  | reading dst id =>
    simp only [RecoveryStage.sections, List.cons.injEq] at hsections
    obtain ⟨rfl,rfl⟩ := hsections
    simp only [exec, Option.some.injEq, Prod.mk.injEq] at he
    obtain ⟨rfl,rfl⟩ := he
    exact ⟨_,.reads dst id,rfl⟩
  | sending dst id state =>
    simp only [RecoveryStage.sections, List.cons.injEq] at hsections
    obtain ⟨rfl,rfl⟩ := hsections
    simp only [exec, Option.some.injEq, Prod.mk.injEq] at he
    obtain ⟨rfl,rfl⟩ := he
    exact ⟨_,.sends dst id state,rfl⟩
  | clearing =>
    simp only [RecoveryStage.sections, List.cons.injEq] at hsections
    obtain ⟨rfl,rfl⟩ := hsections
    simp only [exec, Option.some.injEq, Prod.mk.injEq] at he
    obtain ⟨rfl,rfl⟩ := he
    exact ⟨_,.clears,rfl⟩
  | unlocking =>
    simp only [RecoveryStage.sections, List.cons.injEq] at hsections
    obtain ⟨rfl,rfl⟩ := hsections
    simp only [exec, Option.some.injEq, Prod.mk.injEq] at he
    obtain ⟨rfl,rfl⟩ := he
    exact ⟨_,.unlocks,rfl⟩

/-- A recovery thread runs its next section. -/
theorem recovery_turn (hat : AtStage node k st)
    (h : run rank node (.spawned k) timedOut now = some out) :
    RecoveryTurn node out.state (.run (.spawned k) timedOut now) := by
  obtain ⟨op,rest,ops,out',ht,he,rfl⟩ := run_cases h
  have hran := exec_ran he
  have hsections : st.sections k = op::rest := hat.symm.trans ht
  obtain ⟨after,hstep,hafter⟩ := stageStep_of_exec hsections he
  have hspawns : spawns rank node op = none := by
    have hrec := sections_recovery k st op (by rw [hsections]; exact List.mem_cons_self)
    cases op with
    | handleMessage | electIfLeader => simp [recoverySection] at hrec
    | _ => rfl
  refine .recovery k st after timedOut now rfl hat hstep ?_ ?_ hran.client
  · rw [Server.Node.setThread_self]
    exact hafter
  · intro k' hk' st'
    have hthreads := hran.threads
    rw [hspawns] at hthreads
    unfold AtStage
    rw [Server.Node.setThread_other _ _ _ (by simpa using hk'), hthreads]

/-- An action that runs no section and detects no recovery. -/
theorem quiet_turn (h : RecoveryThreads node) (ha : Server.act rank node a = some out)
    (hsection : sectionAt node a = none) (hdetect : ∀ dst, a ≠ .detectRecovery dst)
    (hcur : out.state.curRecoveryId = node.curRecoveryId) (hclient : ClientTurn node out.state a) :
    RecoveryTurn node out.state a := by
  have hnone : ∀ op, sectionAt node a = some op → recoverySection op = false := by
    intro op hop
    simp [hsection] at hop
  exact .other hnone hdetect ⟨stages_kept h (turned_of_turns (turns_of_act ha)) hnone hdetect,hcur⟩ hclient

theorem recoveryTurn_of_act (h : RecoveryThreads node) (ha : Server.act rank node a = some out) :
    RecoveryTurn node out.state a := by
  have hturn := turned_of_turns (turns_of_act ha)
  have hacts := serverActs_of_act ha
  cases hacts with
  | runs t timedOut now op rest ops out' ht he =>
    cases hop : recoverySection op with
    | true =>
      obtain ⟨k,st,rfl,hat⟩ := h.staged t op (by rw [ht]; exact List.mem_cons_self) hop
      exact recovery_turn hat ha
    | false =>
      have hsection : ∀ op', sectionAt node (.run t timedOut now) = some op' →
          recoverySection op' = false := by
        intro op' hop'
        simp only [sectionAt, ht, List.head?_cons, Option.some.injEq] at hop'
        exact hop' ▸ hop
      obtain ⟨hcur,hmutex⟩ := exec_calm he hop
      refine .other hsection (by simp) ⟨stages_kept h hturn hsection (by simp),hcur⟩
        (.same (by simp) hmutex ?_)
      rw [Server.Node.setThread_client, (exec_ran he).client]
  | recovers dst hj hi hidle hl =>
    refine .detected dst rfl hidle ?_ ?_ rfl rfl rfl
    · simp [AtStage, Server.Node.spawn, Server.Node.setThread, RecoveryStage.sections]
    · intro k hk st
      simp [AtStage, Server.Node.spawn, Server.Node.setThread, hk]
  | connects hclient hp =>
    exact quiet_turn h ha rfl (by simp) rfl (.same (by simp) rfl (by rw [hclient]; rfl))
  | locks hclient hfree =>
    exact quiet_turn h ha rfl (by simp) rfl
      (.locks (by simp) (by rw [hclient]; rfl) hfree rfl rfl)
  | hangsUp hclient => exact quiet_turn h ha rfl (by simp) rfl (.unlocks rfl hclient rfl rfl)
  | calls value now cout hclient =>
    exact quiet_turn h ha rfl (by simp) rfl (.same (by simp) rfl (by rw [hclient]; rfl))
  | proceeds value now c cout hclient hc hd =>
    refine quiet_turn h ha rfl (by simp) rfl (.same (by simp) rfl ?_)
    rcases hd with ⟨rfl,-⟩ | ⟨b,rfl,-⟩ <;> rw [hclient] <;> rfl
  | replies value b hclient =>
    exact quiet_turn h ha rfl (by simp) rfl (.same (by simp) rfl (by rw [hclient]; rfl))
  | handles | resets | elects | fails =>
    exact quiet_turn h ha rfl (by simp) rfl (.same (by simp) rfl rfl)

end Turn

/-- A receiver that takes a message changes nothing of the recoveries, of the lock or of the
client's session. -/
structure Unmoved (node x : Server.Node n) : Prop extends Calm node x where
  mutex : x.clientConnMutex = node.clientConnMutex
  client : x.client = node.client

theorem unmoved_of_accept {node x : Server.Node n} (h : accept rank node tag src m = some x) :
    Unmoved node x := by
  cases accepts_of_accept h with
  | dropped | consensus => exact ⟨⟨fun _ _ => Iff.rfl,rfl⟩,rfl,rfl⟩
  | election | failure =>
    refine ⟨⟨?_,rfl⟩,rfl,rfl⟩
    intro k st
    unfold AtStage
    rw [Server.Node.setThread_other _ _ _ (by simp)]

theorem RecoveryThreads.accept {node x : Server.Node n} (h : RecoveryThreads node)
    (ha : Server.accept rank node tag src m = some x) : RecoveryThreads x := by
  have htaken := taken_of_accept ha
  refine ⟨htaken.unborn h.unborn,?_⟩
  intro t y hy hrec
  rcases htaken.came hy with hold | ⟨rfl,-⟩
  · obtain ⟨k,st,rfl,hat⟩ := h.staged t y hold hrec
    exact ⟨k,st,rfl,((unmoved_of_accept ha).kept k st).mpr hat⟩
  · simp [recoverySection] at hrec

theorem RecoveryThreads.act {node : Server.Node n} (h : RecoveryThreads node)
    (ha : Server.act rank node a = some out) : RecoveryThreads out.state := by
  have hturn := turned_of_turns (turns_of_act ha)
  refine ⟨hturn.unborn h.unborn,?_⟩
  intro t x hx hrec
  have hcame := hturn.came hx
  cases recoveryTurn_of_act h ha with
  | recovery k st after timedOut now ha' hat hstep hafter hothers hclient =>
    by_cases ht : t = .spawned k
    · subst ht
      rw [hafter] at hx
      cases after with
      | none => simp at hx
      | some st' => exact ⟨k,st',rfl,hafter⟩
    · rcases hcame with hold | ⟨b,k',op,hrun,-⟩ | ⟨ops,-,hn,hx⟩
      · obtain ⟨k',st',rfl,hat'⟩ := h.staged t x hold hrec
        exact ⟨k',st',rfl,(hothers k' (fun he => ht (he ▸ rfl)) st').mpr hat'⟩
      · rw [ha'] at hrun
        cases hrun
        exact absurd rfl ht
      · obtain ⟨dst,hdst⟩ := newThread_recovery hn hx hrec
        simp [ha'] at hdst
  | detected dst ha' hidle hafter hothers =>
    by_cases ht : t = .spawned node.spawned
    · exact ⟨_,_,ht,hafter⟩
    · rcases hcame with hold | ⟨b,k',op,hrun,-⟩ | ⟨ops,ht',-⟩
      · obtain ⟨k',st',rfl,hat'⟩ := h.staged t x hold hrec
        exact ⟨k',st',rfl,(hothers k' (fun he => ht (he ▸ rfl)) st').mpr hat'⟩
      · simp [ha'] at hrun
      · exact absurd ht' ht
  | other hsection hdetect hcalm =>
    rcases hcame with hold | ⟨b,k',op,-,hop,hcont⟩ | ⟨ops,-,hn,hx⟩
    · obtain ⟨k,st,rfl,hat⟩ := h.staged t x hold hrec
      exact ⟨k,st,rfl,(hcalm.kept k st).mpr hat⟩
    · have hrec' := hcont.ofRecovery hrec
      simp [hsection op hop] at hrec'
    · obtain ⟨dst,hdst⟩ := newThread_recovery hn hx hrec
      exact absurd hdst (hdetect dst)

theorem RecoveryThreads.start (elected : Option (Fin n)) (i : Fin n) :
    RecoveryThreads (initialNode elected i) :=
  ⟨fun _ _ => rfl,fun _ _ hx => absurd hx List.not_mem_nil⟩

end Algorep.Proofs
