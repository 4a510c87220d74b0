import Algorep.Proofs.LifecycleSteps

namespace Algorep.Proofs
open Kit Program Program.Lifecycle
open Program.Repl (ReplCode)

/-- A thread waits in `ReplManager::sleep` for a start or a recover. -/
def Waits (s : Server) (u : Thread) : Prop :=
  s.phase u = .starting .waiting ∨ s.phase u = .pausing .waiting

/-- The REPL thread is in the `join` of the ping thread. -/
def JoinsPing (s : Server) : Prop := ∃ rest, Stopping s (.joinPingThread::rest)

/-- A server can get from one state to another. -/
def Leads (s t : Server) : Prop := ∃ es, (lifecycleFrom s).Reach Machine.free t es

/-- The REPL thread never gets past the `join`, and some thread waits. -/
def JoinsForever (s : Server) : Prop := (∃ u, Waits s u) ∧ ∀ t, Leads s t → JoinsPing t

/-- The REPL thread is about to call `FailureManager::stopReceiver`. -/
def StopsFailure (s : Server) : Prop :=
  (∃ rest, Stopping s (.stopReceiver .failureDetection::rest)) ∧
    s.isActive .failureDetection = true

/-- The failure manager is stopped only while no crash is simulated, and once its ping thread has
been started. -/
def stopsAwake (_ : List Move) (s : Server) (l : Move) : Prop :=
  l = .stop → StopsFailure s → s.shouldBlock = false ∧ s.phase .ping ≠ .unstarted

/-! What each step does to the flags. -/

theorem LifeStep.shouldBlock (h : LifeStep s l t) : t.shouldBlock = s.shouldBlock ∨
    ∃ code, s.phase (.receiver .repl) = .receiving ∧ t = handleMessage s code := by
  cases h with
  | obeys code hp => exact .inr ⟨code,hp,rfl⟩
  | main call rest hm hc => cases hc <;> exact .inl rfl
  | stops call rest hp hc => cases hc <;> exact .inl rfl
  | _ => exact .inl rfl

theorem LifeStep.terminated (h : LifeStep s l t) : t.terminated = s.terminated ∨
    (JoinsPing s ∧ s.phase .ping = .unstarted) := by
  cases h with
  | obeys code => cases code <;> exact .inl rfl
  | main call rest hm hc => cases hc <;> exact .inl rfl
  | stops call rest hp hc =>
    cases hc with
    | threw hping => exact .inr ⟨⟨rest,hp⟩,hping⟩
    | told | skipped | sent | lowered | joined | cleared => exact .inl rfl
  | _ => exact .inl rfl

theorem LifeStep.pingThreadIsUp (h : LifeStep s l t) : t.pingThreadIsUp = s.pingThreadIsUp ∨
    t.pingThreadIsUp = false ∧
      ∃ rest, Stopping s (.lowerPingThreadIsUp::rest) ∧ Stopping t rest := by
  cases h with
  | obeys code => cases code <;> exact .inl rfl
  | main call rest hm hc => cases hc <;> exact .inl rfl
  | stops call rest hp hc =>
    cases hc with
    | lowered => exact .inr ⟨rfl,rest,hp,setPhase_self _ _ _⟩
    | told | skipped | sent | joined | threw | cleared => exact .inl rfl
  | _ => exact .inl rfl

/-! The threads that wait. -/

theorem notified_waiting (phase : Phase) :
    phase.notified ≠ .starting .waiting ∧ phase.notified ≠ .pausing .waiting := by
  unfold Phase.notified
  split
  · simp
  · simp
  · rename_i hstarting hpausing
    exact ⟨hstarting,hpausing⟩

/-- A thread begins to wait only under the flag. -/
theorem Becomes.waits (h : Becomes s t u phase)
    (hw : phase = .starting .waiting ∨ phase = .pausing .waiting) :
    Waits s u ∨ s.shouldBlock = true := by
  cases h with
  | same => exact .inl hw
  | notified =>
    obtain ⟨hstarting,hpausing⟩ := notified_waiting (s.phase u)
    exact absurd hw (not_or.mpr ⟨hstarting,hpausing⟩)
  | started tag => cases tag <;> simp [firstPhase] at hw
  | tested phase hp =>
    right
    cases hblock : s.shouldBlock with
    | true => rfl
    | false =>
      unfold Phase.tested at hp
      rw [hblock] at hp
      split at hp
      · cases hp
        simp at hw
      · cases hp
        simp at hw
      · contradiction
  | stopping | ended | finished | took | ready | pings | pinged => simp at hw

/-- No wake-up is lost: START and RECOVER set the flag and wake whoever waits, under the mutex. -/
theorem waiting_step (hs : LifeStep s l t) (h : ∀ u, Waits s u → s.shouldBlock = true)
    (hw : Waits t u) : t.shouldBlock = true := by
  rcases hs.shouldBlock with hsame | ⟨code,-,rfl⟩
  · rw [hsame]
    rcases (hs.becomes u).waits hw with hbefore | hblock
    · exact h u hbefore
    · exact hblock
  · cases code with
    | start | recover =>
      obtain ⟨hstarting,hpausing⟩ := notified_waiting (s.phase u)
      exact absurd hw (not_or.mpr ⟨hstarting,hpausing⟩)
    | crash => rfl
    | shutdown | speedLow | speedMedium | speedHigh => exact h u hw

/-! The ping thread. -/

/-- Where `pingCheck` can be. It ends once it has been told to. -/
inductive PingAt (isUp : Bool) : Phase → Prop
  | unstarted : PingAt isUp .unstarted
  | pausing (sleep : Sleep) : PingAt isUp (.pausing sleep)
  | handling : PingAt isUp .handling
  | finished (hdown : isUp = false) : PingAt isUp .finished

theorem Becomes.pings_at (h : Becomes s t .ping phase)
    (hp : PingAt s.pingThreadIsUp (s.phase .ping)) :
    PingAt s.pingThreadIsUp phase ∧ (s.phase .ping ≠ .unstarted → phase ≠ .unstarted) := by
  cases h with
  | same => exact ⟨hp,id⟩
  | notified =>
    generalize s.phase .ping = phase at hp
    cases hp with
    | unstarted => exact ⟨.unstarted,id⟩
    | pausing sleep => cases sleep <;> exact ⟨.pausing .testing,by simp [Phase.notified]⟩
    | handling => exact ⟨.handling,by simp [Phase.notified]⟩
    | finished hdown => exact ⟨.finished hdown,by simp [Phase.notified]⟩
  | started tag rest hm hrest hu => cases hu
  | stopping calls hu => cases hu
  | tested phase htested =>
    generalize s.phase .ping = before at hp htested
    cases hp with
    | unstarted | handling | finished => contradiction
    | pausing sleep =>
      cases sleep with
      | waiting => contradiction
      | testing =>
        cases htested
        split
        · exact ⟨.pausing .waiting,by simp⟩
        · exact ⟨.handling,by simp⟩
  | ended hmoves | finished hmoves | took hmoves =>
    rw [hmoves] at hp
    cases hp
  | ready hu => exact absurd rfl hu
  | pings => exact ⟨.pausing .testing,by simp⟩
  | pinged hu hmoves hdown => exact ⟨.finished hdown,by simp⟩

/-- A thread that waits, or is about to test the flag, goes on only if the flag allows it. -/
theorem Becomes.pauses (h : Becomes s t u phase) (hi : InInit s)
    (hp : s.phase u = .pausing sleep) (hblock : s.shouldBlock = true) :
    ∃ sleep, phase = .pausing sleep := by
  cases h with
  | same => exact ⟨_,hp⟩
  | notified =>
    rw [hp]
    cases sleep <;> exact ⟨_,rfl⟩
  | started tag rest hm hrest hu =>
    subst hu
    rw [hi.unstarted tag (hm ▸ List.mem_cons_self)] at hp
    contradiction
  | tested phase htested =>
    rw [hp, hblock] at htested
    cases sleep with
    | waiting => contradiction
    | testing =>
      cases htested
      exact ⟨_,rfl⟩
  | ended hmoves | finished hmoves | took hmoves | pinged _ hmoves =>
    rw [hp] at hmoves
    contradiction
  | stopping calls hu hmoves =>
    rcases hmoves with hmoves | ⟨call,rest,hmoves⟩ <;> simp [hp] at hmoves
  | ready hu hmoves => rcases hmoves with hmoves | hmoves <;> simp [hp] at hmoves
  | pings => exact ⟨_,rfl⟩

/-! The calls of the REPL thread. -/

/-- The failure manager is told to stop once, before anything that this leads to. -/
def leadsUp : StopCall → StopCall → Bool
  | call, .stopReceiver .failureDetection =>
    call != .stopReceiver .failureDetection && call != .lowerPingThreadIsUp &&
      call != .joinPingThread
  | _, _ => true

theorem leadsUp_stopReceiver (htag : leadsUp (.stopReceiver tag) call = true)
    (hx : x ∈ stopReceiver tag ++ [StopCall.setInactive tag]) : leadsUp x call = true := by
  unfold leadsUp at htag ⊢
  split
  · cases tag <;> simp [stopReceiver] at hx htag ⊢ <;> rcases hx with rfl | rfl <;> simp
  · rfl

theorem stopReceiver_leadsUp (tag : MessageTag) :
    (stopReceiver tag ++ [StopCall.setInactive tag]).Pairwise (fun a b => leadsUp a b = true) := by
  cases tag <;> decide

/-- Whatever the REPL thread does. -/
structure ThreadsOk (s : Server) : Prop where
  init : InInit s
  waiting : ∀ u, Waits s u → s.shouldBlock = true
  ping : PingAt s.pingThreadIsUp (s.phase .ping)
  order : ∀ calls, Stopping s calls → calls.Pairwise (fun a b => leadsUp a b = true)
  down : s.pingThreadIsUp = false → s.phase (.receiver .repl) = .finished ∨
    ∃ calls, Stopping s calls ∧ .stopReceiver .failureDetection ∉ calls

theorem ThreadsOk.order_step (h : ThreadsOk s) (hs : LifeStep s l t) (ht : Stopping t calls) :
    calls.Pairwise (fun a b => leadsUp a b = true) := by
  rcases hs.stopping ht with hbefore | rfl | ⟨call,rest,hp,hleft⟩
  · exact h.order calls hbefore
  · decide
  · have horder := h.order _ hp
    obtain ⟨hhead,hrest⟩ := List.pairwise_cons.mp horder
    rcases hleft with rfl | ⟨tag,rfl,-,-,rfl⟩ | rfl
    · exact hrest
    · rw [List.append_cons]
      refine List.pairwise_append.mpr ⟨stopReceiver_leadsUp tag,hrest,?_⟩
      exact fun x hx call hcall => leadsUp_stopReceiver (hhead call hcall) hx
    · exact horder

theorem ThreadsOk.ping_step (h : ThreadsOk s) (hs : LifeStep s l t) :
    PingAt t.pingThreadIsUp (t.phase .ping) := by
  have hping := ((hs.becomes .ping).pings_at h.ping).1
  generalize t.phase .ping = phase at hping
  cases hping with
  | unstarted => exact .unstarted
  | pausing sleep => exact .pausing sleep
  | handling => exact .handling
  | finished hdown =>
    rcases hs.pingThreadIsUp with hsame | ⟨hdown,-⟩
    · exact .finished (hsame.trans hdown)
    · exact .finished hdown

theorem ThreadsOk.down_step (h : ThreadsOk s) (hs : LifeStep s l t)
    (hdown : t.pingThreadIsUp = false) :
    t.phase (.receiver .repl) = .finished ∨
      ∃ calls, Stopping t calls ∧ .stopReceiver .failureDetection ∉ calls := by
  rcases hs.pingThreadIsUp with hsame | ⟨-,rest,hp,ht⟩
  · rcases h.down (hsame.symm.trans hdown) with hfinished | ⟨calls,hp,hcalls⟩
    · exact .inl (hs.finished h.init hfinished)
    · rcases hs.stays h.init hp with ht | ⟨-,ht⟩ | ⟨call,rest,rfl,hc⟩
      · exact .inr ⟨calls,ht,hcalls⟩
      · exact .inl ht
      · obtain ⟨calls,ht,hleft⟩ := hc.left hp
        refine .inr ⟨calls,ht,?_⟩
        rcases hleft with rfl | ⟨tag,rfl,-,rfl⟩ | rfl
        · exact fun hstop => hcalls (List.mem_cons_of_mem _ hstop)
        · intro hstop
          rcases List.mem_append.mp hstop with hstop | hstop
          · exact (stopReceiver_calls tag .failureDetection).1 hstop
          · rcases List.mem_cons.mp hstop with hstop | hstop
            · cases hstop
            · exact hcalls (List.mem_cons_of_mem _ hstop)
        · exact hcalls
  · refine .inr ⟨rest,ht,?_⟩
    intro hstop
    have hleads := (List.pairwise_cons.mp (h.order _ hp)).1 _ hstop
    simp [leadsUp] at hleads

theorem ThreadsOk.step (h : ThreadsOk s) (hs : LifeStep s l t) : ThreadsOk t :=
  ⟨hs.inInit h.init,fun _ => waiting_step hs h.waiting,h.ping_step hs,
    fun _ => h.order_step hs,h.down_step hs⟩

theorem init_threadsOk : ThreadsOk {} := by
  refine ⟨init_inInit,fun _ _ => rfl,.unstarted,fun calls hc => ?_,fun hdown => ?_⟩
  · cases hc
  · cases hdown

theorem reach_threadsOk (hr : lifecycle.Reach ok s es) : ThreadsOk s := by
  induction hr with
  | start => exact init_threadsOk
  | step _ _ hs ih => exact ih.step (lifecycle_step hs).2.1

/-- While the failure manager has yet to be told to stop, the ping thread goes on. -/
theorem ThreadsOk.up (h : ThreadsOk s) (hp : Stopping s (.stopReceiver .failureDetection::rest)) :
    s.pingThreadIsUp = true := by
  cases hup : s.pingThreadIsUp with
  | true => rfl
  | false =>
    rcases h.down hup with hfinished | ⟨calls,hcalls,hstop⟩
    · have hphase := hfinished.symm.trans hp
      contradiction
    · rw [hcalls.unique hp] at hstop
      simp at hstop

/-! Under the condition. -/

/-- The ping thread is joined only after it has been started, with the flag down. -/
structure Awake (s : Server) : Prop where
  threads : ThreadsOk s
  running : s.terminated = false
  joins : ∀ calls, Stopping s calls → .joinPingThread ∈ calls →
    s.shouldBlock = false ∧ s.phase .ping ≠ .unstarted

/-- Nothing but the REPL thread's loop raises the flag. -/
theorem awake_kept (h : ThreadsOk s) (hs : LifeStep s l t) (hp : Stopping s calls)
    (ha : s.shouldBlock = false ∧ s.phase .ping ≠ .unstarted) :
    t.shouldBlock = false ∧ t.phase .ping ≠ .unstarted := by
  refine ⟨?_,((hs.becomes .ping).pings_at h.ping).2 ha.2⟩
  rcases hs.shouldBlock with hsame | ⟨code,hreceiving,-⟩
  · exact hsame.trans ha.1
  · rw [hp] at hreceiving
    contradiction

theorem stopReceiver_joins (h : .joinPingThread ∈ stopReceiver tag) : tag = .failureDetection := by
  cases tag <;> simp [stopReceiver] at h ⊢

theorem Awake.step (h : Awake s) (hok : stopsAwake es s l) (hs : LifeStep s l t) : Awake t := by
  refine ⟨h.threads.step hs,?_,fun calls ht hjoin => ?_⟩
  · rcases hs.terminated with hsame | ⟨⟨rest,hp⟩,hping⟩
    · exact hsame.trans h.running
    · exact absurd hping (h.joins _ hp List.mem_cons_self).2
  · rcases hs.call_came ht hjoin with hfirst | ⟨before,hp,hjoin⟩ | ⟨tag,rest,hp,ha,hl,hnew⟩
    · simp [stopped] at hfirst
    · exact awake_kept h.threads hs hp (h.joins before hp hjoin)
    · apply awake_kept h.threads hs hp
      rcases hnew with hnew | hnew
      · have htag := stopReceiver_joins hnew
        subst htag
        exact hok hl ⟨⟨rest,hp⟩,ha⟩
      · cases hnew

theorem reach_awake (hr : lifecycle.Reach stopsAwake s es) : Awake s := by
  induction hr with
  | start => exact ⟨init_threadsOk,rfl,fun calls hc => by cases hc⟩
  | step _ hok hs ih => exact ih.step hok (lifecycle_step hs).2.1

/-! Without it. -/

theorem Leads.refl (s : Server) : Leads s s := ⟨[],.start⟩

theorem Leads.step (h : Leads s t) (hs : Lifecycle.step t l = some u) : Leads s u := by
  obtain ⟨es,hr⟩ := h
  have hstep : (lifecycleFrom s).step t l = some (u,[l]) := by simp [lifecycleFrom, hs]
  exact ⟨es ++ [l],.step hr trivial hstep⟩

theorem Leads.threadsOk (h : Leads s t) (hs : ThreadsOk s) : ThreadsOk t := by
  obtain ⟨es,hr⟩ := h
  induction hr with
  | start => exact hs
  | step _ _ hstep ih => exact ih.step (lifecycle_step hstep).2.1

/-- The REPL thread joins a ping thread that the flag keeps from going on. -/
structure Parked (s : Server) : Prop where
  init : InInit s
  joins : JoinsPing s
  blocked : s.shouldBlock = true
  pauses : ∃ sleep, s.phase .ping = .pausing sleep

theorem Parked.step (h : Parked s) (hs : LifeStep s l t) : Parked t := by
  obtain ⟨rest,hp⟩ := h.joins
  obtain ⟨sleep,hping⟩ := h.pauses
  refine ⟨hs.inInit h.init,?_,?_,(hs.becomes .ping).pauses h.init hping h.blocked⟩
  · rcases hs.stays h.init hp with ht | ⟨hnil,-⟩ | ⟨call,rest',hcons,hc⟩
    · exact ⟨rest,ht⟩
    · contradiction
    · cases hcons
      -- the join returns only once the ping thread has finished
      cases hc with
      | joined hmoves | threw hmoves =>
        rw [hping] at hmoves
        contradiction
  · rcases hs.shouldBlock with hsame | ⟨code,hreceiving,-⟩
    · exact hsame.trans h.blocked
    · rw [hp] at hreceiving
      contradiction

theorem Parked.stuck (h : Parked s) (hw : Waits s u) : JoinsForever s := by
  refine ⟨⟨u,hw⟩,?_⟩
  rintro t ⟨es,hr⟩
  have hparked : Parked t := by
    induction hr with
    | start => exact h
    | step _ _ hs ih => exact ih.step (lifecycle_step hs).2.1
  exact hparked.joins

/-- The REPL thread can make its next call whatever the other threads do. -/
theorem step_of_stops (hrunning : s.terminated = false) (hp : Stopping s (call::rest))
    (hc : Stops s call rest t) : Lifecycle.step s .stop = some t := by
  have hphase : s.phase (.receiver .repl) = .stopping (call::rest) := hp
  have hstep : Lifecycle.step s .stop = stop s := by simp [Lifecycle.step, hrunning]
  rw [hstep]
  simp only [stop, hphase]
  cases hc with
  | told tag ha | skipped tag ha => simp [ha]
  | sent | lowered | cleared => rfl
  | joined hping | threw hping => simp [hping]

theorem Leads.stops (h : Leads s t) (hrunning : t.terminated = false)
    (hp : Stopping t (call::rest)) (hc : Stops t call rest u) : Leads s u :=
  h.step (step_of_stops hrunning hp hc)

theorem Stops.ping (h : Stops s call rest t) : t.phase .ping = s.phase .ping := by
  have hne : Thread.ping ≠ .receiver .repl := by simp
  cases h with
  | threw => rfl
  | told | skipped | sent | lowered | joined | cleared => exact setPhase_other _ _ hne

/-- The REPL thread comes to the join on its own. -/
theorem leads_joinsPing (hrunning : s.terminated = false)
    (hp : Stopping s (.stopReceiver .failureDetection::rest))
    (ha : s.isActive .failureDetection = true) : ∃ t, Leads s t ∧ t.terminated = false ∧
      JoinsPing t ∧ t.shouldBlock = s.shouldBlock ∧ t.phase .ping = s.phase .ping := by
  have hfirst := (Leads.refl s).stops hrunning hp (.told _ ha)
  have hsecond := hfirst.stops hrunning (setPhase_self _ _ _) (.sent _)
  have hthird := hsecond.stops hrunning (setPhase_self _ _ _) .lowered
  refine ⟨_,hthird,hrunning,⟨_,setPhase_self _ _ _⟩,rfl,?_⟩
  exact Stops.lowered.ping.trans ((Stops.sent _).ping.trans (Stops.told _ ha).ping)

/-- Under the flag, the ping thread can come to wait before it is told to end. -/
theorem leads_waits (hrunning : s.terminated = false) (hblock : s.shouldBlock = true)
    (hup : s.pingThreadIsUp = true) (hp : PingAt s.pingThreadIsUp (s.phase .ping))
    (hstarted : s.phase .ping ≠ .unstarted) : ∃ t, Leads s t ∧ t.terminated = false ∧
      t.shouldBlock = true ∧ t.isActive = s.isActive ∧ t.phase .ping = .pausing .waiting ∧
      t.phase (.receiver .repl) = s.phase (.receiver .repl) := by
  have hrepl : Thread.receiver .repl ≠ .ping := by simp
  have htest : ∀ u : Server, u.terminated = false → u.shouldBlock = true →
      u.phase .ping = .pausing .testing →
      Lifecycle.step u (.test .ping) = some (u.setPhase .ping (.pausing .waiting)) := by
    intro u hrunning hblock hu
    simp [Lifecycle.step, hrunning, hblock, hu, Phase.tested]
  generalize hphase : s.phase .ping = phase at hp
  cases hp with
  | unstarted => exact absurd hphase hstarted
  | finished hdown =>
    rw [hup] at hdown
    contradiction
  | pausing sleep =>
    cases sleep with
    | waiting => exact ⟨s,.refl s,hrunning,hblock,rfl,hphase,rfl⟩
    | testing =>
      exact ⟨_,(Leads.refl s).step (htest s hrunning hblock hphase),hrunning,hblock,rfl,
        setPhase_self _ _ _,setPhase_other _ _ hrepl⟩
  | handling =>
    have hround : Lifecycle.step s (.proceed .ping) =
        some (s.setPhase .ping (.pausing .testing)) := by
      simp [Lifecycle.step, proceed, hrunning, hphase, hup]
    have hwaits := htest (s.setPhase .ping (.pausing .testing)) hrunning hblock
      (setPhase_self _ _ _)
    exact ⟨_,((Leads.refl s).step hround).step hwaits,hrunning,hblock,rfl,setPhase_self _ _ _,
      (setPhase_other _ _ hrepl).trans (setPhase_other _ _ hrepl)⟩

theorem Leads.trans (h : Leads s t) (h' : Leads t u) : Leads s u := by
  obtain ⟨es,hr⟩ := h'
  induction hr with
  | start => exact h
  | step hr _ hs ih =>
    simp only [lifecycleFrom, Option.map_eq_some_iff, Prod.mk.injEq] at hs
    obtain ⟨t',hs,rfl,-⟩ := hs
    exact ih.step hs

/-- A call that comes too early, or while a crash is simulated, may never return. -/
theorem leads_stuck (h : ThreadsOk s) (hrunning : s.terminated = false) (hstops : StopsFailure s)
    (hasleep : ¬ (s.shouldBlock = false ∧ s.phase .ping ≠ .unstarted)) :
    ∃ t, Leads s t ∧ (JoinsForever t ∨ t.terminated = true) := by
  obtain ⟨⟨rest,hp⟩,ha⟩ := hstops
  by_cases hstarted : s.phase .ping = .unstarted
  · obtain ⟨t,hleads,ht,⟨rest',hjoin⟩,-,hping⟩ := leads_joinsPing hrunning hp ha
    exact ⟨_,hleads.stops ht hjoin (.threw (hping.trans hstarted)),.inr rfl⟩
  · have hblock : s.shouldBlock = true := by simpa [hstarted] using hasleep
    obtain ⟨t,hleads,ht,hblock,hactive,hping,hrepl⟩ :=
      leads_waits hrunning hblock (h.up hp) h.ping hstarted
    obtain ⟨u,hleads',-,hjoin,hblock',hping'⟩ :=
      leads_joinsPing ht (hrepl.trans hp) (hactive ▸ ha)
    have hwaits := hping'.trans hping
    have hinit := ((hleads.trans hleads').threadsOk h).init
    have hparked : Parked u := ⟨hinit,hjoin,hblock'.trans hblock,_,hwaits⟩
    exact ⟨u,hleads.trans hleads',.inl (hparked.stuck (.inr hwaits))⟩

/-- While the condition is met nobody waits, for a start or a recover, when the REPL thread
joins the ping thread, and the ping thread has been started. A call that breaks the condition
may never return. -/
theorem shutdown_unblocked (hr : lifecycle.Reach stopsAwake s es) :
    (JoinsPing s → ∀ u, ¬ Waits s u) ∧ s.terminated = false ∧
    ∀ l, ¬ stopsAwake es s l → ∃ t, Leads s t ∧ (JoinsForever t ∨ t.terminated = true) := by
  have hawake := reach_awake hr
  refine ⟨?_,hawake.running,fun l hl => ?_⟩
  · rintro ⟨rest,hp⟩ u hw
    have hdown := (hawake.joins _ hp List.mem_cons_self).1
    rw [hawake.threads.waiting u hw] at hdown
    contradiction
  · unfold stopsAwake at hl
    push Not at hl
    obtain ⟨-,hstops,hasleep⟩ := hl
    exact leads_stuck hawake.threads hawake.running hstops (fun h => h.2 (hasleep h.1))

/-- What a node's REPL thread has read. -/
def commandsRead (es : List Move) : List ReplCode :=
  es.filterMap (fun l => match l with
    | .fetch command => command
    | _ => none)

/-- All the threads are started, and then a command comes. -/
def startsWith (code : ReplCode) : List Move := List.replicate 10 .main ++ [.fetch (some code)]

/-- The failure manager's receiver gets past its `init`, and the ping thread to its first test. -/
def initsFailure : List Move :=
  [.test (.receiver .failureDetection),.proceed (.receiver .failureDetection)]

/-- The REPL thread calls `stopReceiver` twice, and then `FailureManager::stopReceiver` up to
the join. -/
def stopsToJoin : List Move := List.replicate 9 .stop

def stopsAwakeTest (s : Server) : Bool :=
  match s.phase (.receiver .repl) with
  | .stopping (.stopReceiver .failureDetection::_) =>
    !s.isActive .failureDetection || (!s.shouldBlock && s.phase .ping != .unstarted)
  | _ => true

theorem stopsAwake_of_test (h : stopsAwakeTest s = true) : stopsAwake es s l := by
  rintro - ⟨⟨rest,hp⟩,ha⟩
  have hphase : s.phase (.receiver .repl) = .stopping (.stopReceiver .failureDetection::rest) := hp
  simpa [stopsAwakeTest, hphase, ha] using h

theorem startsThenStops_end : (lifecycle.follow (fun _ s _ => stopsAwakeTest s)
    (startsWith .start ++ initsFailure ++ [.fetch (some .shutdown)] ++ stopsToJoin)
    lifecycle.start []).map (fun p => p.1.phase (.receiver .repl)) =
      some (.stopping [.joinPingThread,.setInactive .failureDetection]) := by
  decide

theorem shutdown_unblocked_startsThenStops : ∃ s es, lifecycle.Reach stopsAwake s es ∧
    JoinsPing s ∧ ∀ u, ¬ Waits s u := by
  obtain ⟨s,es,hr,hp⟩ := Machine.exists_reach (fun _ _ _ => stopsAwake_of_test)
    startsThenStops_end
  have hjoins : JoinsPing s := ⟨_,hp⟩
  exact ⟨s,es,hr,hjoins,(shutdown_unblocked hr).1 hjoins⟩

theorem crashThenStops_end : (lifecycle.follow (fun _ _ _ => true)
    (startsWith .start ++ initsFailure ++ [.fetch (some .crash),.test .ping,
      .fetch (some .shutdown)] ++ stopsToJoin) lifecycle.start []).map
      (fun p => (commandsRead p.2,p.1.phase (.receiver .repl),p.1.shouldBlock,p.1.phase .ping)) =
    some ([.start,.crash,.shutdown],
      .stopping [.joinPingThread,.setInactive .failureDetection],true,.pausing .waiting) := by
  decide

theorem neverStarted_end : (lifecycle.follow (fun _ _ _ => true)
    (startsWith .shutdown ++ stopsToJoin ++ [.stop]) lifecycle.start []).map
      (fun p => (commandsRead p.2,p.1.terminated)) = some ([.shutdown],true) := by
  decide

/-- After a crash the REPL thread joins a thread that waits for a recover, and without a start
it joins none at all. -/
theorem shutdown_blocked :
    (∃ s es, lifecycle.Reach Machine.free s es ∧ commandsRead es = [.start,.crash,.shutdown] ∧
      JoinsForever s) ∧
    ∃ s es, lifecycle.Reach Machine.free s es ∧ commandsRead es = [.shutdown] ∧
      s.terminated = true := by
  constructor
  · obtain ⟨s,es,hr,h⟩ := Machine.exists_reach (fun _ _ _ _ => trivial) crashThenStops_end
    simp only [Prod.mk.injEq] at h
    obtain ⟨hcommands,hp,hblock,hping⟩ := h
    have hparked : Parked s := ⟨(reach_threadsOk hr).init,⟨_,hp⟩,hblock,_,hping⟩
    exact ⟨s,es,hr,hcommands,hparked.stuck (.inr hping)⟩
  · obtain ⟨s,es,hr,h⟩ := Machine.exists_reach (fun _ _ _ _ => trivial) neverStarted_end
    simp only [Prod.mk.injEq] at h
    exact ⟨s,es,hr,h⟩

end Algorep.Proofs
