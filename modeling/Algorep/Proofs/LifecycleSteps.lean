import Algorep.Program.Lifecycle

namespace Algorep.Proofs
open Kit Program Program.Lifecycle
open Program.Repl (ReplCode)

theorem setPhase_self (s : Server) (t : Thread) (phase : Phase) :
    (s.setPhase t phase).phase t = phase := Function.update_self ..

theorem setPhase_other (s : Server) (phase : Phase) (h : u ≠ t) :
    (s.setPhase t phase).phase u = s.phase u := Function.update_of_ne h ..

theorem handleMessage_phase (s : Server) (code : ReplCode) (t : Thread) :
    (handleMessage s code).phase t = s.phase t ∨
      (handleMessage s code).phase t = (s.phase t).notified := by
  cases code with
  | start | recover => exact .inr rfl
  | shutdown | speedLow | speedMedium | speedHigh | crash => exact .inl rfl

/-- The REPL thread has the calls still to make. -/
def Stopping (s : Server) (calls : List StopCall) : Prop :=
  s.phase (.receiver .repl) = .stopping calls

/-- What the REPL thread does with its next call. -/
inductive Stops (s : Server) : StopCall → List StopCall → Server → Prop
  | told (tag : MessageTag) (ha : s.isActive tag = true) : Stops s (.stopReceiver tag) rest
      (s.setPhase (.receiver .repl) (.stopping (stopReceiver tag ++ .setInactive tag::rest)))
  | skipped (tag : MessageTag) (ha : s.isActive tag = false) : Stops s (.stopReceiver tag) rest
      (s.setPhase (.receiver .repl) (.stopping rest))
  | sent (tag : MessageTag) : Stops s (.sendShutdown tag) rest
      ((s.setShutdownSent tag true).setPhase (.receiver .repl) (.stopping rest))
  | lowered : Stops s .lowerPingThreadIsUp rest
      (Server.setPhase { s with pingThreadIsUp := false } (.receiver .repl) (.stopping rest))
  | joined (hp : s.phase .ping = .finished) : Stops s .joinPingThread rest
      (s.setPhase (.receiver .repl) (.stopping rest))
  | threw (hp : s.phase .ping = .unstarted) : Stops s .joinPingThread rest
      { s with terminated := true }
  | cleared (tag : MessageTag) : Stops s (.setInactive tag) rest
      ((s.setActive tag false).setPhase (.receiver .repl) (.stopping rest))

/-- What the main thread does with its next call. -/
inductive MainCalls (s : Server) : MainCall → List MainCall → Server → Prop
  | starts (tag : MessageTag) : MainCalls s (.startThread tag) rest
      (Server.setPhase { s with main := rest } (.receiver tag) (firstPhase tag))
  | activates (tag : MessageTag) : MainCalls s (.setActive tag) rest
      (Server.setActive { s with main := rest } tag true)
  | waits (tag : MessageTag) (ha : s.isActive tag = true) : MainCalls s (.waitForReceiver tag) rest
      { s with main := .join tag::rest }
  | passes (tag : MessageTag) (ha : s.isActive tag = false) :
      MainCalls s (.waitForReceiver tag) rest { s with main := rest }
  | joins (tag : MessageTag) (hp : s.phase (.receiver tag) = .finished) :
      MainCalls s (.join tag) rest { s with main := rest }

/-- Everything a step of a server can be. -/
inductive LifeStep (s : Server) : Move → Server → Prop
  | main (call : MainCall) (rest : List MainCall) (hm : s.main = call::rest)
      (hc : MainCalls s call rest t) : LifeStep s .main t
  | idles (hp : s.phase (.receiver .repl) = .receiving) : LifeStep s (.fetch none) s
  | obeys (code : ReplCode) (hp : s.phase (.receiver .repl) = .receiving)
      (hcode : code ≠ .shutdown) : LifeStep s (.fetch (some code)) (handleMessage s code)
  | leaves (hp : s.phase (.receiver .repl) = .receiving) : LifeStep s (.fetch (some .shutdown))
      (s.setPhase (.receiver .repl) (.stopping (stopped.map .stopReceiver)))
  | ends (hp : Stopping s []) : LifeStep s .stop (s.setPhase (.receiver .repl) .finished)
  | stops (call : StopCall) (rest : List StopCall) (hp : Stopping s (call::rest))
      (hc : Stops s call rest t) : LifeStep s .stop t
  | closes (hp : s.phase (.receiver .client) = .receiving) : LifeStep s (.receive .client true)
      (s.setPhase (.receiver .client) .finished)
  | finishes (tag : MessageTag) (htag : tag ≠ .repl) (hp : s.phase (.receiver tag) = .receiving)
      (hs : s.shutdownSent tag = true) : LifeStep s (.receive tag true)
      ((s.setShutdownSent tag false).setPhase (.receiver tag) .finished)
  | takes (tag : MessageTag) (htag : tag ≠ .repl) (hp : s.phase (.receiver tag) = .receiving) :
      LifeStep s (.receive tag false) (s.setPhase (.receiver tag) (.pausing .testing))
  | tests (t : Thread) (phase : Phase) (hp : (s.phase t).tested s.shouldBlock = some phase) :
      LifeStep s (.test t) (s.setPhase t phase)
  | wakes (t : Thread) (hp : (s.phase t).notified ≠ s.phase t) :
      LifeStep s (.wake t) (s.setPhase t (s.phase t).notified)
  | inits (tag : MessageTag) (hp : s.phase (.receiver tag) = .initializing) :
      LifeStep s (.proceed (.receiver tag)) (s.setPhase (.receiver tag) .receiving)
  | initsPing (hp : s.phase (.receiver .failureDetection) = .initializing) :
      LifeStep s (.proceed (.receiver .failureDetection))
        ((s.setPhase (.receiver .failureDetection) .receiving).setPhase .ping (.pausing .testing))
  | handles (tag : MessageTag) (hp : s.phase (.receiver tag) = .handling) :
      LifeStep s (.proceed (.receiver tag)) (s.setPhase (.receiver tag) .receiving)
  | rounds (hp : s.phase .ping = .handling) : LifeStep s (.proceed .ping)
      (s.setPhase .ping (if s.pingThreadIsUp then .pausing .testing else .finished))

theorem lifeStep_of_stop (h : stop s = some t) : LifeStep s .stop t := by
  unfold stop at h
  split at h
  · rename_i hp
    cases h
    exact .ends hp
  · rename_i call rest hp
    refine .stops call rest hp ?_
    cases call with
    | stopReceiver tag =>
      cases h
      cases ha : s.isActive tag with
      | true => exact .told tag ha
      | false => exact .skipped tag ha
    | sendShutdown tag =>
      cases h
      exact .sent tag
    | lowerPingThreadIsUp =>
      cases h
      exact .lowered
    | joinPingThread =>
      simp only at h
      split at h
      · rename_i hping
        cases h
        exact .threw hping
      · rename_i hping
        cases h
        exact .joined hping
      · contradiction
    | setInactive tag =>
      cases h
      exact .cleared tag
  · contradiction

theorem lifeStep_of_mainStep (h : mainStep s = some t) : LifeStep s .main t := by
  unfold mainStep at h
  split at h
  · contradiction
  · rename_i tag rest hm
    cases h
    exact .main _ rest hm (.starts tag)
  · rename_i tag rest hm
    cases h
    exact .main _ rest hm (.activates tag)
  · rename_i tag rest hm
    cases h
    cases ha : s.isActive tag with
    | true => exact .main _ rest hm (.waits tag ha)
    | false => exact .main _ rest hm (.passes tag ha)
  · rename_i tag rest hm
    simp only [Option.ite_none_right_eq_some, Option.some.injEq] at h
    obtain ⟨hp,rfl⟩ := h
    exact .main _ rest hm (.joins tag hp)

theorem lifeStep_of_fetch (h : fetch s command = some t) : LifeStep s (.fetch command) t := by
  simp only [fetch, Option.ite_none_right_eq_some] at h
  obtain ⟨hp,h⟩ := h
  cases command with
  | none =>
    cases h
    exact .idles hp
  | some code =>
    cases code with
    | shutdown =>
      cases h
      exact .leaves hp
    | start | speedLow | speedMedium | speedHigh | crash | recover =>
      cases h
      exact .obeys _ hp (by simp)

theorem lifeStep_of_receive (h : receive s tag shutdown = some t) :
    LifeStep s (.receive tag shutdown) t := by
  simp only [receive, Option.ite_none_right_eq_some] at h
  obtain ⟨⟨htag,hp⟩,h⟩ := h
  cases shutdown with
  | false =>
    cases h
    exact .takes tag htag hp
  | true =>
    simp only [↓reduceIte] at h
    split at h
    · rename_i hclient
      subst hclient
      cases h
      exact .closes hp
    · simp only [Option.ite_none_right_eq_some, Option.some.injEq] at h
      obtain ⟨hs,rfl⟩ := h
      exact .finishes tag htag hp hs

theorem lifeStep_of_proceed (h : proceed s u = some t) : LifeStep s (.proceed u) t := by
  unfold proceed at h
  split at h
  · rename_i tag hp
    by_cases htag : tag = .failureDetection
    · subst htag
      cases h
      exact .initsPing hp
    · simp only [htag, ↓reduceIte, Option.some.injEq] at h
      cases h
      exact .inits tag hp
  · rename_i tag hp
    cases h
    exact .handles tag hp
  · rename_i hp
    cases h
    exact .rounds hp
  · contradiction

theorem lifeStep_of_step (h : step s l = some t) : s.terminated = false ∧ LifeStep s l t := by
  unfold step at h
  split at h
  · contradiction
  · rename_i hrunning
    refine ⟨by simpa using hrunning,?_⟩
    cases l with
    | main => exact lifeStep_of_mainStep h
    | fetch command => exact lifeStep_of_fetch h
    | stop => exact lifeStep_of_stop h
    | receive tag shutdown => exact lifeStep_of_receive h
    | test u =>
      obtain ⟨phase,hp,rfl⟩ := Option.map_eq_some_iff.mp h
      exact .tests u phase hp
    | wake u =>
      simp only [Option.ite_none_left_eq_some, Option.some.injEq] at h
      obtain ⟨hp,rfl⟩ := h
      exact .wakes u hp
    | proceed u => exact lifeStep_of_proceed h

/-- What a step may make of the phase of a thread. -/
inductive Becomes (s s' : Server) (u : Thread) : Phase → Prop
  | same : Becomes s s' u (s.phase u)
  | notified : Becomes s s' u (s.phase u).notified
  | started (tag : MessageTag) (rest : List MainCall) (hm : s.main = .startThread tag::rest)
      (hrest : s'.main = rest) (hu : u = .receiver tag) : Becomes s s' u (firstPhase tag)
  | stopping (calls : List StopCall) (hu : u = .receiver .repl)
      (hp : s.phase u = .receiving ∨ ∃ call rest, s.phase u = .stopping (call::rest)) :
      Becomes s s' u (.stopping calls)
  | ended (hp : s.phase u = .stopping []) : Becomes s s' u .finished
  | finished (hp : s.phase u = .receiving) : Becomes s s' u .finished
  | took (hp : s.phase u = .receiving) : Becomes s s' u (.pausing .testing)
  | tested (phase : Phase) (hp : (s.phase u).tested s.shouldBlock = some phase) :
      Becomes s s' u phase
  | ready (hu : u ≠ .ping) (hp : s.phase u = .initializing ∨ s.phase u = .handling) :
      Becomes s s' u .receiving
  | pings (hu : u = .ping) (hp : s.phase (.receiver .failureDetection) = .initializing ∨
      s.phase u = .handling) : Becomes s s' u (.pausing .testing)
  | pinged (hu : u = .ping) (hp : s.phase u = .handling) (hdown : s.pingThreadIsUp = false) :
      Becomes s s' u .finished

/-- Only the thread whose phase is set has to be looked at. -/
theorem becomes_setPhase {s : Server} (h : u = t → Becomes s s' u phase) :
    Becomes s s' u ((s.setPhase t phase).phase u) := by
  by_cases hu : u = t
  · subst hu
    rw [setPhase_self]
    exact h rfl
  · rw [setPhase_other _ _ hu]
    exact .same

theorem LifeStep.becomes (h : LifeStep s l s') (u : Thread) : Becomes s s' u (s'.phase u) := by
  cases h with
  | main call rest hm hc =>
    cases hc with
    | starts tag => exact becomes_setPhase (fun hu => .started tag rest hm rfl hu)
    | activates | waits | passes | joins => exact .same
  | idles => exact .same
  | obeys code hp hcode =>
    rcases handleMessage_phase s code u with h | h <;> rw [h]
    · exact .same
    · exact .notified
  | leaves hp => exact becomes_setPhase (fun hu => .stopping _ hu (.inl (hu ▸ hp)))
  | ends hp => exact becomes_setPhase (fun hu => .ended (hu ▸ hp))
  | stops call rest hp hc =>
    have hstops : ∀ calls, u = .receiver .repl → Becomes s s' u (.stopping calls) :=
      fun calls hu => .stopping calls hu (.inr ⟨call,rest,hu ▸ hp⟩)
    cases hc with
    | threw => exact .same
    | told | skipped | sent | lowered | joined | cleared =>
      exact becomes_setPhase (hstops _)
  | closes hp => exact becomes_setPhase (fun hu => .finished (hu ▸ hp))
  | finishes tag htag hp => exact becomes_setPhase (fun hu => .finished (hu ▸ hp))
  | takes tag htag hp => exact becomes_setPhase (fun hu => .took (hu ▸ hp))
  | tests t phase hp => exact becomes_setPhase (fun hu => .tested phase (hu ▸ hp))
  | wakes t => exact becomes_setPhase (fun hu => hu ▸ .notified)
  | inits tag hp =>
    exact becomes_setPhase (fun hu => .ready (by simp [hu]) (.inl (hu ▸ hp)))
  | initsPing hp =>
    by_cases hu : u = .ping
    · subst hu
      rw [setPhase_self]
      exact .pings rfl (.inl hp)
    · rw [setPhase_other _ _ hu]
      exact becomes_setPhase (fun hu => .ready (by simp [hu]) (.inl (hu ▸ hp)))
  | handles tag hp =>
    exact becomes_setPhase (fun hu => .ready (by simp [hu]) (.inr (hu ▸ hp)))
  | rounds hp =>
    apply becomes_setPhase
    rintro rfl
    split
    · exact .pings rfl (.inr hp)
    · rename_i hdown
      exact .pinged rfl hp (by simpa using hdown)

/-- Only the main thread moves a receiver that has not been started, or has finished. -/
theorem Becomes.rests (h : Becomes s s' (.receiver tag) phase)
    (hp : s.phase (.receiver tag) = .unstarted ∨ s.phase (.receiver tag) = .finished)
    (hstart : ∀ rest, s.main = .startThread tag::rest → s'.main ≠ rest) :
    phase = s.phase (.receiver tag) := by
  cases h with
  | same => rfl
  | notified => rcases hp with hp | hp <;> rw [hp] <;> rfl
  | started tag' rest hm hrest hu =>
    cases hu
    exact absurd hrest (hstart rest hm)
  | tested phase htested => rcases hp with hp | hp <;> simp [hp, Phase.tested] at htested
  | pings hu | pinged hu => cases hu
  | stopping calls hu hmoves =>
    rcases hmoves with hmoves | ⟨call,rest,hmoves⟩ <;> rw [hmoves] at hp <;> simp at hp
  | ended hmoves | finished hmoves | took hmoves => simp [hmoves] at hp
  | ready hu hmoves => rcases hmoves with hmoves | hmoves <;> simp [hmoves] at hp

/-! The REPL thread. -/

theorem stopping_setPhase {s : Server} (h : Stopping (s.setPhase t phase) calls)
    (hphase : ∀ calls, phase ≠ .stopping calls) : Stopping s calls := by
  by_cases ht : t = .receiver .repl
  · subst ht
    exact absurd ((setPhase_self _ _ _).symm.trans h) (hphase calls)
  · exact (setPhase_other _ _ (Ne.symm ht)).symm.trans h

theorem notified_stopping {phase : Phase} (h : phase.notified = .stopping calls) :
    phase = .stopping calls := by
  unfold Phase.notified at h
  split at h
  · contradiction
  · contradiction
  · exact h

theorem stopReceiver_calls (tag tag' : MessageTag) :
    .stopReceiver tag' ∉ stopReceiver tag ∧ .setInactive tag' ∉ stopReceiver tag := by
  cases tag <;> simp [stopReceiver]

/-- The calls that are left once a call has been made. -/
theorem Stops.left (h : Stops s call rest t) (hp : Stopping s (call::rest)) :
    ∃ calls, Stopping t calls ∧ (calls = rest ∨
      (∃ tag, call = .stopReceiver tag ∧ s.isActive tag = true ∧
        calls = stopReceiver tag ++ .setInactive tag::rest) ∨
      calls = call::rest) := by
  cases h with
  | told tag ha => exact ⟨_,setPhase_self _ _ _,.inr (.inl ⟨tag,rfl,ha,rfl⟩)⟩
  | threw => exact ⟨_,hp,.inr (.inr rfl)⟩
  | skipped | sent | lowered | joined | cleared => exact ⟨_,setPhase_self _ _ _,.inl rfl⟩

theorem Stopping.unique (h : Stopping s calls) (h' : Stopping s calls') : calls = calls' :=
  Phase.stopping.inj (h.symm.trans h')

/-- How the REPL thread comes to the calls it has to make. -/
theorem LifeStep.stopping (h : LifeStep s l t) (ht : Stopping t calls) : Stopping s calls ∨
    calls = stopped.map .stopReceiver ∨
    ∃ call rest, Stopping s (call::rest) ∧ (calls = rest ∨
      (∃ tag, call = .stopReceiver tag ∧ s.isActive tag = true ∧ l = .stop ∧
        calls = stopReceiver tag ++ .setInactive tag::rest) ∨
      calls = call::rest) := by
  cases h with
  | main call rest hm hc =>
    cases hc with
    | starts tag => exact .inl (stopping_setPhase ht (by cases tag <;> simp [firstPhase]))
    | activates | waits | passes | joins => exact .inl ht
  | idles => exact .inl ht
  | obeys code hp hcode =>
    rcases handleMessage_phase s code (.receiver .repl) with hphase | hphase
    · exact .inl (hphase.symm.trans ht)
    · exact .inl (notified_stopping (hphase.symm.trans ht))
  | leaves hp => exact .inr (.inl (Phase.stopping.inj ((setPhase_self _ _ _).symm.trans ht)).symm)
  | ends hp => exact .inl (stopping_setPhase ht (by simp))
  | stops call rest hp hc =>
    obtain ⟨calls',ht',hleft⟩ := hc.left hp
    rw [ht'.unique ht] at hleft
    exact .inr (.inr ⟨call,rest,hp,hleft.imp id (.imp (fun ⟨tag,hcall,ha,hcalls⟩ =>
      ⟨tag,hcall,ha,rfl,hcalls⟩) id)⟩)
  | closes | finishes | takes | inits | handles => exact .inl (stopping_setPhase ht (by simp))
  | initsPing => exact .inl (stopping_setPhase (stopping_setPhase ht (by simp)) (by simp))
  | rounds =>
    refine .inl (stopping_setPhase ht ?_)
    intro calls
    split <;> simp
  | tests u phase hp =>
    refine .inl (stopping_setPhase ht ?_)
    rintro calls rfl
    unfold Phase.tested at hp
    split at hp
    · split at hp <;> cases hp
    · split at hp <;> cases hp
    · contradiction
  | wakes u hp =>
    refine .inl (stopping_setPhase ht ?_)
    intro calls hcalls
    exact hp (hcalls.trans (notified_stopping hcalls).symm)

/-- Where a call that the REPL thread has to make comes from. -/
theorem LifeStep.call_came (h : LifeStep s l t) (ht : Stopping t calls) (hx : x ∈ calls) :
    x ∈ stopped.map .stopReceiver ∨ (∃ before, Stopping s before ∧ x ∈ before) ∨
    ∃ tag rest, Stopping s (.stopReceiver tag::rest) ∧ s.isActive tag = true ∧ l = .stop ∧
      (x ∈ stopReceiver tag ∨ x = .setInactive tag) := by
  rcases h.stopping ht with hbefore | rfl | ⟨call,rest,hp,hleft⟩
  · exact .inr (.inl ⟨calls,hbefore,hx⟩)
  · exact .inl hx
  · rcases hleft with rfl | ⟨tag,rfl,ha,hl,rfl⟩ | rfl
    · exact .inr (.inl ⟨_,hp,List.mem_cons_of_mem _ hx⟩)
    · rcases List.mem_append.mp hx with hx | hx
      · exact .inr (.inr ⟨tag,rest,hp,ha,hl,.inl hx⟩)
      · rcases List.mem_cons.mp hx with hx | hx
        · exact .inr (.inr ⟨tag,rest,hp,ha,hl,.inr hx⟩)
        · exact .inr (.inl ⟨_,hp,List.mem_cons_of_mem _ hx⟩)
    · exact .inr (.inl ⟨_,hp,hx⟩)

theorem LifeStep.isActive (h : LifeStep s l t) (tag : MessageTag) :
    t.isActive tag = s.isActive tag ∨
    (s.main.head? = some (.setActive tag) ∧ t.isActive tag = true) ∨
    ∃ rest, Stopping s (.setInactive tag::rest) := by
  cases h with
  | main call rest hm hc =>
    cases hc with
    | activates tag' =>
      by_cases htag : tag = tag'
      · subst htag
        exact .inr (.inl ⟨by rw [hm]; rfl,Function.update_self ..⟩)
      · exact .inl (Function.update_of_ne htag ..)
    | starts | waits | passes | joins => exact .inl rfl
  | obeys code => cases code <;> exact .inl rfl
  | stops call rest hp hc =>
    cases hc with
    | cleared tag' =>
      by_cases htag : tag = tag'
      · subst htag
        exact .inr (.inr ⟨rest,hp⟩)
      · exact .inl (Function.update_of_ne htag ..)
    | told | skipped | sent | lowered | joined | threw => exact .inl rfl
  | _ => exact .inl rfl

/-! The main thread. -/

/-- The order of the calls in `Node::init`: none comes twice, and no flag is set after a wait. -/
def ordered : MainCall → MainCall → Bool
  | .waitForReceiver _, .setActive _ => false
  | call, later => call != later

theorem init_ordered : init.Pairwise (fun call later => ordered call later = true) := by decide

theorem init_call (h : call::rest <:+ init) (hx : x ∈ rest) : ordered call x = true :=
  (List.pairwise_cons.mp (init_ordered.sublist h.sublist)).1 x hx

/-- What is left of `Node::init`. -/
structure InInit (s : Server) : Prop where
  calls : s.main <:+ init ∨
    ∃ tag rest, s.main = .join tag::rest ∧ .waitForReceiver tag::rest <:+ init
  unstarted : ∀ tag, .startThread tag ∈ s.main → s.phase (.receiver tag) = .unstarted

/-- A call of `Node::init` is the head of what is left of it. -/
theorem InInit.head (h : InInit s) (hm : s.main = call::rest) (hcall : ∀ tag, call ≠ .join tag) :
    call::rest <:+ init := by
  rcases h.calls with h | ⟨tag,rest',hjoin,-⟩
  · rwa [hm] at h
  · rw [hm] at hjoin
    exact absurd (List.cons.inj hjoin).1 (hcall tag)

theorem InInit.after (h : InInit s) (hm : s.main = call::rest) : rest <:+ init := by
  rcases h.calls with h | ⟨tag,rest',hjoin,h⟩
  · rw [hm] at h
    exact (List.suffix_cons _ _).trans h
  · rw [hm] at hjoin
    rw [(List.cons.inj hjoin).2]
    exact (List.suffix_cons _ _).trans h

/-- Only the main thread changes what it has to do. -/
theorem LifeStep.main_cases (h : LifeStep s l t) : t.main = s.main ∨
    ∃ call rest, l = .main ∧ s.main = call::rest ∧ MainCalls s call rest t := by
  cases h with
  | main call rest hm hc => exact .inr ⟨call,rest,rfl,hm,hc⟩
  | obeys code => cases code <;> exact .inl rfl
  | stops call rest hp hc => cases hc <;> exact .inl rfl
  | _ => exact .inl rfl

theorem MainCalls.main_eq (h : MainCalls s call rest t) :
    t.main = rest ∨ ∃ tag, call = .waitForReceiver tag ∧ t.main = .join tag::rest := by
  cases h with
  | waits tag => exact .inr ⟨tag,rfl,rfl⟩
  | starts | activates | passes | joins => exact .inl rfl

theorem LifeStep.inInit (h : LifeStep s l t) (hi : InInit s) : InInit t := by
  have hmain : t.main = s.main ∨ ∃ call rest, s.main = call::rest ∧
      (t.main = rest ∨ ∃ tag, call = .waitForReceiver tag ∧ t.main = .join tag::rest) :=
    h.main_cases.imp id (fun ⟨call,rest,_,hm,hc⟩ => ⟨call,rest,hm,hc.main_eq⟩)
  refine ⟨?_,?_⟩
  · rcases hmain with heq | ⟨call,rest,hm,heq | ⟨tag,rfl,heq⟩⟩
    · rw [heq]
      exact hi.calls
    · rw [heq]
      exact .inl (hi.after hm)
    · exact .inr ⟨tag,rest,heq,hi.head hm (by simp)⟩
  · intro tag htag
    have hbefore : .startThread tag ∈ s.main := by
      rcases hmain with heq | ⟨call,rest,hm,heq | ⟨tag',rfl,heq⟩⟩
      · exact heq ▸ htag
      · rw [hm]
        exact List.mem_cons_of_mem _ (heq ▸ htag)
      · rw [heq] at htag
        rw [hm]
        simpa using htag
    have hphase := hi.unstarted tag hbefore
    rw [(h.becomes _).rests (.inl hphase), hphase]
    rintro rest hm rfl
    have hordered := init_call (hi.head hm (by simp)) htag
    simp [ordered] at hordered

/-- A receiver that has finished is not started again. -/
theorem LifeStep.finished (h : LifeStep s l t) (hi : InInit s)
    (hp : s.phase (.receiver tag) = .finished) : t.phase (.receiver tag) = .finished := by
  rw [(h.becomes _).rests (.inr hp), hp]
  intro rest hm
  have hunstarted := hi.unstarted tag (hm ▸ List.mem_cons_self)
  rw [hp] at hunstarted
  contradiction

theorem init_inInit : InInit {} := by
  refine ⟨.inl (List.suffix_refl _),fun _ _ => rfl⟩

/-- The REPL thread keeps the calls it has to make until it makes the next one. -/
theorem Stopping.other (h : Stopping s calls) (ht : s.phase t ≠ .stopping calls) :
    Stopping (s.setPhase t phase) calls := by
  have hne : .receiver .repl ≠ t := by
    rintro rfl
    exact ht h
  exact (setPhase_other _ _ hne).trans h

theorem LifeStep.stays (h : LifeStep s l t) (hi : InInit s) (hp : Stopping s calls) :
    Stopping t calls ∨
    (calls = [] ∧ t.phase (.receiver .repl) = .finished) ∨
    ∃ call rest, calls = call::rest ∧ Stops s call rest t := by
  have hreceiving : s.phase (.receiver .repl) ≠ .receiving := by
    rw [hp]
    simp
  cases h with
  | main call rest hm hc =>
    cases hc with
    | starts tag =>
      have hunstarted := hi.unstarted tag (hm ▸ List.mem_cons_self)
      exact .inl (Stopping.other (s := { s with main := rest }) hp (by simp [hunstarted]))
    | activates | waits | passes | joins => exact .inl hp
  | idles hmoves | obeys _ hmoves | leaves hmoves => exact absurd hmoves hreceiving
  | ends hempty =>
    have hcalls : calls = [] := Phase.stopping.inj (hp.symm.trans hempty)
    exact .inr (.inl ⟨hcalls,setPhase_self _ _ _⟩)
  | stops call rest hcons hc =>
    have hcalls := Phase.stopping.inj (hp.symm.trans hcons)
    exact .inr (.inr ⟨call,rest,hcalls,hc⟩)
  | finishes tag htag hmoves =>
    have hmoves' : (s.setShutdownSent tag false).phase (.receiver tag) = .receiving := hmoves
    exact .inl (Stopping.other (s := s.setShutdownSent tag false) hp (by simp [hmoves']))
  | closes hmoves | takes _ _ hmoves | inits _ hmoves | handles _ hmoves | rounds hmoves =>
    exact .inl (hp.other (by simp [hmoves]))
  | initsPing hmoves =>
    have hstays : Stopping (s.setPhase (.receiver .failureDetection) .receiving) calls :=
      hp.other (by simp [hmoves])
    exact .inl ((setPhase_other _ _ (by simp)).trans hstays)
  | tests u phase htested =>
    refine .inl (hp.other ?_)
    intro hstops
    simp [hstops, Phase.tested] at htested
  | wakes u hmoves =>
    refine .inl (hp.other ?_)
    intro hstops
    exact hmoves (by rw [hstops]; rfl)

theorem lifecycle_step (h : (lifecycleFrom u).step s l = some (t,e)) :
    s.terminated = false ∧ LifeStep s l t ∧ e = [l] := by
  simp only [lifecycleFrom, Option.map_eq_some_iff, Prod.mk.injEq] at h
  obtain ⟨t',hstep,rfl,rfl⟩ := h
  obtain ⟨hrunning,hsteps⟩ := lifeStep_of_step hstep
  exact ⟨hrunning,hsteps,rfl⟩

end Algorep.Proofs
