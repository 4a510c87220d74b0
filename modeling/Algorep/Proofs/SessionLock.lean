import Algorep.Program.Startup
import Algorep.Proofs.RecoverySteps

namespace Algorep.Proofs
open Kit Program Program.Server

/-- A run of starting servers as its moves, each with the state it was made in. -/
abbrev StartupTrace (n : Nat) := List (Startup.Cluster n × Startup.Move n)

abbrev StartupReach (elected : Option (Fin n))
    (ok : StartupTrace n → Startup.Cluster n → Startup.Move n → Prop) :
    Startup.Cluster n → StartupTrace n → Prop :=
  (Startup.process elected).network.traced.Reach ok

/-- The thread that unlocks `clientConnMutex` with an action, as a holder of the lock. -/
def unlocker (node : Startup.Node n) : Startup.Action n → Option Holder
  | .allowRecovery | .server .disconnect => some .client
  | .server (.run t _ _) =>
    match t, (node.server.threads t).head? with
    | .spawned k, some .unlockClientConn => some (.recovery k)
    | _, _ => none
  | _ => none

/-- If the action unlocks the lock, its thread holds it. -/
def unlocksOwn (node : Startup.Node n) (a : Startup.Action n) : Bool :=
  match unlocker node a with
  | some holder => node.server.clientConnMutex == some holder
  | none => true

/-- Whoever unlocked the lock of node `i` held it, as far as the actions of interest go. -/
def HoldersUnlock (i : Fin n) (among : Startup.Action n → Prop) (es : StartupTrace n) : Prop :=
  ∀ s a, (s,.act i a) ∈ es → among a → unlocksOwn (s.nodes i) a = true

/-- A REPLICATE is being handled. -/
def handlesReplicate : Client → Bool
  | .replicating _ | .replying _ _ => true
  | _ => false

/-- A recovery has read the log and not reset `curRecoveryId` yet. -/
def holdsSnapshot (ops : List (Op n)) : Bool :=
  ops.contains .clearRecoveryId && !ops.any (fun op => match op with
    | .readState _ _ _ => true
    | _ => false)

def Exclusive (node : Server.Node n) : Prop :=
  ¬ (handlesReplicate node.client = true ∧ ∃ t, holdsSnapshot (node.threads t) = true)

/-- The node's first `allowRecovery` finds no recovery with the lock. -/
def startsUnlocked (s : Startup.Cluster n) : Startup.Move n → Bool
  | .act i .allowRecovery => (s.nodes i).server.clientConnMutex.isNone
  | _ => true

def RecoveryStage.holding : RecoveryStage n → Bool
  | .starting _ | .locking _ _ => false
  | _ => true

/-- The lock is held exactly by those that are between lock and unlock. -/
structure LockOk (node : Startup.Node n) : Prop where
  threads : RecoveryThreads node.server
  recovery : ∀ k, node.server.clientConnMutex = some (.recovery k) ↔
    ∃ st, AtStage node.server k st ∧ st.holding = true
  client : node.server.clientConnMutex = some .client ↔ inSession node.server.client = true
  early : node.accepts = false → node.server.client = .accepting

/-- Only a connection ends the wait for a client. -/
theorem stays_accepting {node : Server.Node n} (ha : Server.act rank node a = some out)
    (hclient : node.client = .accepting) (hne : a ≠ .connect) : out.state.client = .accepting := by
  have hacts := serverActs_of_act ha
  cases hacts with
  | connects => exact absurd rfl hne
  | hangsUp => rfl
  | locks hc | calls _ _ _ hc | proceeds _ _ _ _ hc | replies _ _ hc =>
    rw [hclient] at hc
    contradiction
  | handles | resets | elects | fails | recovers => exact hclient
  | runs t timedOut now op rest ops out' ht he =>
    rw [Server.Node.setThread_client, (exec_ran he).client, hclient]

section Step
variable {node x : Startup.Node n}

/-- The stage of a recovery as its thread has come to it. -/
theorem stage_after {x : Server.Node n}
    (hafter : x.threads (.spawned k) = (after.map (RecoveryStage.sections k)).getD [])
    (st : RecoveryStage n) : AtStage x k st ↔ after = some st := by
  unfold AtStage
  rw [hafter]
  cases after with
  | none => simpa using (sections_ne_nil k st).symm
  | some st' =>
    simp only [Option.map_some, Option.getD_some, Option.some.injEq]
    exact ⟨sections_injective,fun he => he ▸ rfl⟩

/-- Whether a recovery holds the lock, before and after one of its sections. -/
theorem StageStep.lock {node : Server.Node n} (h : StageStep node k st after cur mutex) :
    (mutex = node.clientConnMutex ∧ ∃ st', after = some st' ∧ st'.holding = st.holding) ∨
    (node.clientConnMutex = none ∧ mutex = some (.recovery k) ∧
      ∃ st', after = some st' ∧ st'.holding = true) ∨
    (mutex = none ∧ st.holding = true ∧ after = none) := by
  cases h with
  | starts | reads | sends | clears => exact .inl ⟨rfl,_,rfl,rfl⟩
  | locks dst id hfree => exact .inr (.inl ⟨hfree,rfl,_,rfl,rfl⟩)
  | unlocks => exact .inr (.inr ⟨rfl,rfl,rfl⟩)

theorem LockOk.held {k : Nat} (h : LockOk node) (hat : AtStage node.server k st) :
    node.server.clientConnMutex = some (.recovery k) ↔ st.holding = true := by
  rw [h.recovery]
  constructor
  · rintro ⟨st',hat',hst'⟩
    exact hat'.unique hat ▸ hst'
  · exact fun hst => ⟨st,hat,hst⟩

theorem LockOk.recovers (h : LockOk node) (hat : AtStage node.server k st)
    (hstep : StageStep node.server k st after x.server.curRecoveryId x.server.clientConnMutex)
    (hafter : x.server.threads (.spawned k) = (after.map (RecoveryStage.sections k)).getD [])
    (hothers : ∀ k', k' ≠ k → ∀ st', AtStage x.server k' st' ↔ AtStage node.server k' st')
    (hclient : x.server.client = node.server.client) (hthreads : RecoveryThreads x.server)
    (haccepts : x.accepts = node.accepts) : LockOk x := by
  have hother : ∀ k', k' ≠ k → ((∃ st', AtStage x.server k' st' ∧ st'.holding = true) ↔
      node.server.clientConnMutex = some (.recovery k')) := by
    intro k' hk'
    simp only [hothers k' hk', h.recovery]
  have hearly : x.accepts = false → x.server.client = .accepting := by
    rw [haccepts, hclient]
    exact h.early
  have hheld := h.held hat
  rcases hstep.lock with ⟨hmutex,st',rfl,hst'⟩ | ⟨hfree,hmutex,st',rfl,hst'⟩ | ⟨hmutex,hst,rfl⟩
  · refine ⟨hthreads,?_,by rw [hmutex, hclient]; exact h.client,hearly⟩
    intro k'
    by_cases hk' : k' = k
    · subst hk'
      simp [hmutex, stage_after hafter, hst', hheld]
    · rw [hmutex, hother k' hk']
  · refine ⟨hthreads,?_,?_,hearly⟩
    · intro k'
      by_cases hk' : k' = k
      · subst hk'
        simp [hmutex, stage_after hafter, hst']
      · simp [hmutex, hother k' hk', hfree, Ne.symm hk']
    · rw [hclient, ← h.client, hmutex, hfree]
      simp
  · have hlocked := hheld.mpr hst
    refine ⟨hthreads,?_,?_,hearly⟩
    · intro k'
      by_cases hk' : k' = k
      · subst hk'
        simp [hmutex, stage_after hafter]
      · simp [hmutex, hother k' hk', hlocked, Ne.symm hk']
    · rw [hclient, ← h.client, hmutex, hlocked]
      simp

/-- An action outside a session's lock and unlock keeps who holds the lock. -/
theorem LockOk.keeps (h : LockOk node) (hthreads : RecoveryThreads x.server)
    (hmutex : x.server.clientConnMutex = node.server.clientConnMutex)
    (hclient : inSession x.server.client = inSession node.server.client)
    (hstages : ∀ k st, st.holding = true → (AtStage x.server k st ↔ AtStage node.server k st))
    (hearly : x.accepts = false → x.server.client = .accepting) : LockOk x := by
  refine ⟨hthreads,?_,by rw [hmutex, hclient]; exact h.client,hearly⟩
  intro k
  rw [hmutex, h.recovery]
  constructor
  · rintro ⟨st,hat,hst⟩
    exact ⟨st,(hstages k st hst).mpr hat,hst⟩
  · rintro ⟨st,hat,hst⟩
    exact ⟨st,(hstages k st hst).mp hat,hst⟩

theorem unlocker_run {node : Startup.Node n}
    (h : unlocker node (.server (.run t timedOut now)) = some holder) :
    ∃ k, t = .spawned k ∧ holder = .recovery k ∧
      (node.server.threads (.spawned k)).head? = some .unlockClientConn := by
  simp only [unlocker] at h
  split at h
  · rename_i k hop
    exact ⟨k,rfl,(Option.some.inj h).symm,hop⟩
  · contradiction

/-- Whoever unlocks the lock in or after a session holds it. -/
theorem LockOk.unlocks (h : LockOk node) (hs : Server.act rank node.server a = some out) :
    unlocksOwn node (.server a) = true := by
  unfold unlocksOwn
  split
  case h_2 => rfl
  rename_i holder hunlock
  cases a with
  | disconnect =>
    obtain rfl : holder = .client := by simpa [unlocker, eq_comm] using hunlock
    cases serverActs_of_act hs with
    | hangsUp hc => simp [h.client, hc, inSession]
  | run t timedOut now =>
    obtain ⟨k,rfl,rfl,hop⟩ := unlocker_run hunlock
    obtain ⟨k',st,hk,hat⟩ := h.threads.staged (.spawned k) _ (List.mem_of_mem_head? hop) rfl
    cases hk
    have hst : st.holding = true := by
      unfold AtStage at hat
      rw [hat] at hop
      cases st <;> simp [RecoveryStage.sections, handleNodeRecovery, pausedRecovery] at hop
      rfl
    simp [(h.held hat).mpr hst]
  | _ => simp [unlocker] at hunlock

theorem LockOk.serve (h : LockOk node) (hs : Startup.serve rank node a = some out) :
    LockOk out.state ∧ unlocksOwn node (.server a) = true := by
  simp only [Startup.serve, Option.ite_none_right_eq_some, Option.map_eq_some_iff] at hs
  obtain ⟨hallows,sout,hact,rfl⟩ := hs
  refine ⟨?_,h.unlocks hact⟩
  have hthreads := h.threads.act hact
  have hearly : node.accepts = false → sout.state.client = .accepting := by
    intro hnot
    refine stays_accepting hact (h.early hnot) ?_
    rintro rfl
    simp [Startup.allows, hnot] at hallows
  cases recoveryTurn_of_act h.threads hact with
  | recovery k st after timedOut now ha hat hstep hafter hothers hclient =>
    exact h.recovers hat hstep hafter hothers hclient hthreads rfl
  | detected dst ha hidle hafter hothers hcur hclient hmutex =>
    refine h.keeps hthreads hmutex (by rw [hclient]) ?_ hearly
    intro k st hst
    by_cases hk : k = node.server.spawned
    · subst hk
      refine iff_of_false ?_ (fun hat => absurd rfl (Nat.ne_of_lt (hat.lt_spawned h.threads.unborn)))
      intro hat
      rw [hat.unique hafter] at hst
      simp [RecoveryStage.holding] at hst
    · exact hothers k hk st
  | other hsection hdetect hcalm hclient =>
    cases hclient with
    | same ha hmutex hsession =>
      exact h.keeps hthreads hmutex hsession (fun k st _ => hcalm.kept k st) hearly
    | locks ha hbefore hfree hafter hmutex =>
      have hnone : ∀ k st, AtStage node.server k st → st.holding = false := by
        intro k st hat
        have hheld := h.held hat
        simpa [hfree] using hheld
      refine ⟨hthreads,?_,by simp [hmutex, hafter, inSession],hearly⟩
      intro k
      simp only [hmutex, hcalm.kept]
      refine iff_of_false (by simp) ?_
      rintro ⟨st,hat,hst⟩
      simp [hnone k st hat] at hst
    | unlocks ha hbefore hafter hmutex =>
      have hlocked := h.client.mpr (by rw [hbefore]; rfl)
      refine ⟨hthreads,?_,by simp [hmutex, hafter, inSession],hearly⟩
      intro k
      simp only [hmutex, hcalm.kept]
      refine iff_of_false (by simp) ?_
      intro hex
      have hrec := (h.recovery k).mpr hex
      simp [hlocked] at hrec

theorem LockOk.accept (h : LockOk node)
    (ha : Server.accept rank node.server tag src m = some server) :
    LockOk { node with server := server } := by
  have hstill := unmoved_of_accept ha
  exact h.keeps (h.threads.accept ha) hstill.mutex (by rw [hstill.client])
    (fun k st _ => hstill.kept k st) (fun hnot => hstill.client.trans (h.early hnot))

/-- The first `allowRecovery` is as good as any while nobody holds the lock. -/
theorem LockOk.first (h : LockOk node) (ha : Startup.allowRecovery node = some out)
    (hfree : node.server.clientConnMutex = none) : LockOk out.state := by
  simp only [Startup.allowRecovery, Option.ite_none_left_eq_some, Option.some.injEq] at ha
  obtain ⟨-,rfl⟩ := ha
  have hsame : ({ node.server with clientConnMutex := none } : Server.Node n) = node.server := by
    rw [← hfree]
  simp only [hsame]
  exact h.keeps h.threads rfl rfl (fun _ _ _ => Iff.rfl) (by simp)

/-- The client thread does not hold the lock it unlocks first. -/
theorem LockOk.first_unowned (h : LockOk node) (ha : Startup.allowRecovery node = some out) :
    unlocksOwn node .allowRecovery = false := by
  simp only [Startup.allowRecovery, Option.ite_none_left_eq_some] at ha
  have hclient := h.early (by simpa using ha.1)
  have hnot : node.server.clientConnMutex ≠ some .client := by
    rw [ne_eq, h.client, hclient]
    simp [inSession]
  simpa [unlocksOwn, unlocker] using hnot

theorem LockOk.exclusive (h : LockOk node) : Exclusive node.server := by
  rintro ⟨hhandles,t,hsnapshot⟩
  have hclient : node.server.clientConnMutex = some .client := by
    rw [h.client]
    cases hc : node.server.client <;> simp [handlesReplicate, hc] at hhandles <;> rfl
  simp only [holdsSnapshot, Bool.and_eq_true, List.contains_iff_mem] at hsnapshot
  obtain ⟨hclear,hread⟩ := hsnapshot
  obtain ⟨k,st,rfl,hat⟩ := h.threads.staged t _ hclear rfl
  have hst : st.holding = true := by
    unfold AtStage at hat
    rw [hat] at hclear hread
    cases st <;> simp [RecoveryStage.sections, handleNodeRecovery, pausedRecovery] at hclear hread
    all_goals rfl
  have hrec := (h.held hat).mpr hst
  simp [hclient] at hrec

end Step

theorem LockOk.start (elected : Option (Fin n)) (i : Fin n) :
    LockOk ((Startup.process elected).start i) := by
  refine ⟨.start elected i,?_,by simp [Startup.process, initialNode, inSession],fun _ => rfl⟩
  intro k
  refine iff_of_false (by simp [Startup.process, initialNode]) ?_
  rintro ⟨st,hat,-⟩
  exact sections_ne_nil k st hat.symm

/-- What one step does to one starting server. -/
inductive StartupStepAt (s t : Startup.Cluster n) (i : Fin n) : Startup.Move n → Prop
  | other (hm : ∀ a, l ≠ .act i a) (he : t.nodes i = s.nodes i) : StartupStepAt s t i l
  | act (a : Startup.Action n) (out : Startup.Result n)
      (ha : Startup.act i (s.nodes i) a = some out) (he : t.nodes i = out.state) :
      StartupStepAt s t i (.act i a)
  | receive (tag : MessageTag) (src : Fin n) (m : Server.Message n) (server : Server.Node n)
      (ha : Server.accept i (s.nodes i).server tag src m = some server)
      (he : t.nodes i = { s.nodes i with server := server }) :
      StartupStepAt s t i (.receive tag src i)

theorem startup_step_at {s t : Startup.Cluster n} (h : (Startup.process elected).Step s l t e)
    (i : Fin n) : StartupStepAt s t i l := by
  cases h with
  | act j a out ho =>
    by_cases hj : i = j
    · subst hj
      exact .act a out ho (LaneNet.commit_self _ _ _ _)
    · exact .other (by simp [Ne.symm hj]) (LaneNet.commit_other _ _ _ hj)
  | receive tag src dst m rest x hc hx =>
    by_cases hj : i = dst
    · subst hj
      obtain ⟨server,hserver,rfl⟩ := Option.map_eq_some_iff.mp hx
      exact .receive tag src m server hserver (LaneNet.take_self _ _ _ _ _ _)
    · exact .other (by simp) (LaneNet.take_other _ _ _ _ _ hj)

section Runs
variable {s t : Startup.Cluster n} {es : StartupTrace n}

theorem holdersUnlock_append {among : Startup.Action n → Prop} :
    HoldersUnlock i among (es ++ [(s,l)]) ↔ HoldersUnlock i among es ∧
      ∀ a, l = .act i a → among a → unlocksOwn (s.nodes i) a = true := by
  constructor
  · intro h
    refine ⟨fun s' a ha => h s' a (List.mem_append_left _ ha),?_⟩
    rintro a rfl
    exact h s a (List.mem_append_right _ List.mem_cons_self)
  · rintro ⟨hold,hnew⟩ s' a ha
    rcases List.mem_append.mp ha with ha | ha
    · exact hold s' a ha
    · simp only [List.mem_singleton, Prod.mk.injEq] at ha
      obtain ⟨rfl,rfl⟩ := ha
      exact hnew a rfl

/-- Every step of a server keeps the lock in order, and unlocks only what its thread holds,
except for a first `allowRecovery`. -/
theorem lock_step (h : LockOk (s.nodes i)) (hs : StartupStepAt s t i l)
    (hfirst : l = .act i .allowRecovery → (s.nodes i).server.clientConnMutex = none) :
    LockOk (t.nodes i) ∧
      ∀ a, l = .act i a → a ≠ .allowRecovery → unlocksOwn (s.nodes i) a = true := by
  cases hs with
  | other hm he => exact ⟨he ▸ h,fun a ha => absurd ha (hm a)⟩
  | receive tag src m server ha he => exact ⟨he ▸ h.accept ha,by simp⟩
  | act a out ha he =>
    cases a with
    | allowRecovery =>
      refine ⟨he ▸ h.first ha (hfirst rfl),?_⟩
      intro a ha' hne
      cases ha'
      exact absurd rfl hne
    | server a =>
      obtain ⟨hok,hunlocks⟩ := h.serve ha
      refine ⟨he ▸ hok,?_⟩
      intro a' ha' _
      cases ha'
      exact hunlocks

theorem reach_lock (hr : StartupReach elected (fun _ s l => startsUnlocked s l = true) s es)
    (i : Fin n) : LockOk (s.nodes i) ∧ HoldersUnlock i (· ≠ .allowRecovery) es := by
  induction hr with
  | start => exact ⟨.start elected i,fun s a ha => absurd ha List.not_mem_nil⟩
  | @step s es l t x hr hok hs ih =>
    obtain ⟨rfl,e,he⟩ := Machine.traced_step hs
    obtain ⟨hlock,hold⟩ := ih
    obtain ⟨hlock',hnew⟩ := lock_step hlock (startup_step_at (LaneProcess.step_of_eq he) i) (by
      rintro rfl
      simpa [startsUnlocked] using hok)
    exact ⟨hlock',holdersUnlock_append.mpr ⟨hold,hnew⟩⟩

theorem accepts_kept (hs : StartupStepAt s t i l) (hl : l ≠ .act i .allowRecovery) :
    (t.nodes i).accepts = (s.nodes i).accepts := by
  cases hs with
  | other hm he => rw [he]
  | receive tag src m server ha he => rw [he]
  | act a out ha he =>
    cases a with
    | allowRecovery => exact absurd rfl hl
    | server a =>
      simp only [Startup.act, Startup.serve, Option.ite_none_right_eq_some,
        Option.map_eq_some_iff] at ha
      obtain ⟨-,sout,-,rfl⟩ := ha
      rw [he]

/-- Before its first `allowRecovery` a server is in order; that call is made without the lock. -/
theorem reach_startup (hr : StartupReach elected Machine.free s es) (i : Fin n) :
    ((s.nodes i).accepts = false → LockOk (s.nodes i) ∧ HoldersUnlock i (fun _ => True) es) ∧
    ((s.nodes i).accepts = true → ¬ HoldersUnlock i (fun _ => True) es) := by
  induction hr with
  | start =>
    exact ⟨fun _ => ⟨.start elected i,fun s a ha => absurd ha List.not_mem_nil⟩,fun h => by cases h⟩
  | @step s es l t x hr hok hs ih =>
    obtain ⟨rfl,e,he⟩ := Machine.traced_step hs
    have hat := startup_step_at (LaneProcess.step_of_eq he) i
    rw [holdersUnlock_append]
    by_cases hl : l = .act i .allowRecovery
    · subst hl
      cases hat with
      | other hm => exact absurd rfl (hm _)
      | act a out ha hout =>
        have hnot : (s.nodes i).accepts = false := by
          have ha' : Startup.allowRecovery (s.nodes i) = some out := ha
          simp only [Startup.allowRecovery, Option.ite_none_left_eq_some] at ha'
          simpa using ha'.1
        have hunowned := (ih.1 hnot).1.first_unowned ha
        refine ⟨fun hlate => ?_,fun _ hall => ?_⟩
        · have ha' : Startup.allowRecovery (s.nodes i) = some out := ha
          simp only [Startup.allowRecovery, Option.ite_none_left_eq_some, Option.some.injEq] at ha'
          rw [hout, ← ha'.2] at hlate
          contradiction
        · simp [hall.2 _ rfl trivial] at hunowned
    · rw [accepts_kept hat hl]
      refine ⟨fun hnot => ?_,fun hyes hall => ih.2 hyes hall.1⟩
      obtain ⟨hlock,hold⟩ := ih.1 hnot
      obtain ⟨hlock',hnew⟩ := lock_step hlock hat (fun he => absurd he hl)
      refine ⟨hlock',hold,?_⟩
      rintro a rfl -
      exact hnew a rfl (fun he => hl (he ▸ rfl))

end Runs

/-- A server unlocks `clientConnMutex` for its holders alone, and keeps REPLICATE and
recoveries apart, exactly until its first `allowRecovery`. Where that finds no recovery with
the lock, all later unlocks are the holders', and the two stay apart. -/
theorem sessions_exclude_recoveries (elected : Option (Fin n)) :
    (∀ s es i, StartupReach elected Machine.free s es →
      (HoldersUnlock i (fun _ => True) es ∧ Exclusive (s.nodes i).server ↔
        (s.nodes i).accepts = false)) ∧
    ∀ s es i, StartupReach elected (fun _ s l => startsUnlocked s l = true) s es →
      HoldersUnlock i (· ≠ .allowRecovery) es ∧ Exclusive (s.nodes i).server := by
  constructor
  · intro s es i hr
    obtain ⟨hearly,hlate⟩ := reach_startup hr i
    constructor
    · rintro ⟨hall,-⟩
      by_contra hyes
      exact hlate (by simpa using hyes) hall
    · intro hnot
      obtain ⟨hlock,hall⟩ := hearly hnot
      exact ⟨hall,hlock.exclusive⟩
  · intro s es i hr
    obtain ⟨hlock,hall⟩ := reach_lock hr i
    exact ⟨hall,hlock.exclusive⟩

/-- Node 0 starts to recover a peer, and has the lock, when its client manager starts; a client
then gets in before the recovery is over. -/
def startsLate (p : Fin n) (L : Fin n) : List (Startup.Move n) :=
  (Move.marksDead L p 0 ++ Move.sendsState L p 1 5).map (fun l => match l with
    | .act i a => .act i (.server a)
    | .receive k src dst => .receive k src dst) ++
  .act L .allowRecovery::[.connect,.disallowRecovery,.replicate "v" 7].map
    (fun a => .act L (.server a))

theorem startsLate_end : ((Startup.process (some (1 : Fin 2))).network.traced.follow
    (fun _ _ _ => true) (startsLate 0 1)
    (Startup.process (some (1 : Fin 2))).network.traced.start []).map
    (fun r => (handlesReplicate (r.1.nodes 1).server.client,
      holdsSnapshot ((r.1.nodes 1).server.threads (.spawned 1)),(r.1.nodes 1).accepts)) =
      some (true,true,true) := by
  decide

/-- A REPLICATE is handled while a recovery is between its reading of the log and the reset
of `curRecoveryId`. -/
theorem session_joins_recovery : ∃ s es,
    StartupReach (some (1 : Fin 2)) Machine.free s es ∧ ¬ Exclusive (s.nodes 1).server ∧
    ¬ HoldersUnlock 1 (fun _ => True) es := by
  obtain ⟨s,es,hr,h⟩ := Machine.exists_reach (fun _ _ _ _ => trivial) startsLate_end
  simp only [Prod.mk.injEq] at h
  obtain ⟨hhandles,hsnapshot,haccepts⟩ := h
  exact ⟨s,es,hr,fun hex => hex ⟨hhandles,_,hsnapshot⟩,(reach_startup hr 1).2 haccepts⟩

end Algorep.Proofs
