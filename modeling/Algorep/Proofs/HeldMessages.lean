import Algorep.Proofs.CrashedServers

namespace Algorep.Proofs
open Kit Program Program.Controlled
open Program.Lifecycle (Thread Phase)

/-! What the threads of a server are at, and what they hold while `ReplManager::sleep` holds
them up. -/

/-- What a thread has left to do, or has taken and not begun. -/
inductive Left (n : Nat)
  | sections (ops : List (Server.Op n)) (pinged : Option (Fin n))
  | packet (received : Option (Fin n × Consensus.Packet)) (resetting : Bool)
  | request (client : Server.Client) (value : Option String)
  | rounds (ops : List (Heartbeat.PingOp n))
  | nothing
deriving DecidableEq

def left (work : Heartbeat.Node n) (request : Option String) : Thread → Left n
  | .receiver .leaderElection => .sections (work.server.threads .electionReceiver) none
  | .receiver .failureDetection => .sections (work.server.threads .failureReceiver) work.pinged
  | .receiver .consensus => .packet work.server.received work.server.consensus.resetting
  | .receiver .client => .request work.server.client request
  | .receiver .repl => .nothing
  | .ping => .rounds work.pingThread

/-- Nothing of a message or a round is left. -/
def Left.over : Left n → Bool
  | .sections ops pinged => ops.isEmpty && pinged.isNone
  | .packet received resetting => received.isNone && !resetting
  | .request client value => !serving client && value.isNone
  | .rounds ops => ops.isEmpty
  | .nothing => true

/-- One message is left, all of it. -/
def Left.untouched : Left n → Bool
  | .sections [.handleMessage _ _] none | .sections [] (some _) => true
  | .packet (some _) false => true
  | .request .session (some _) => true
  | _ => false

/-- What a thread may have left where it is. A receiver that is held up in its loop has taken a
message. -/
def Suits (t : Thread) (phase : Phase) (x : Left n) : Prop :=
  match phase with
  | .handling => True
  | .pausing _ => match t with
    | .receiver _ => x.untouched = true
    | .ping => x.over = true
  | _ => x.over = true

def Orderly (node : Controlled.Node n) : Prop :=
  ∀ t, Suits t (node.control.phase t) (left node.work node.request t)

/-! Steps of the threads, which leave the work as it is. -/

section Threads
variable {s s' : Lifecycle.Server} {x : Thread → Left n}

/-- Before the loop of a receiver. -/
def early : Phase → Bool
  | .unstarted | .starting _ | .initializing => true
  | _ => false

/-- The ping thread is started once the failure receiver has been. -/
def FirstPing (s : Lifecycle.Server) : Prop :=
  early (s.phase (.receiver .failureDetection)) = true → s.phase .ping = .unstarted

theorem suits_setPhase (hf : ∀ t, Suits t (s.phase t) (x t)) (hu : Suits u phase (x u)) :
    ∀ t, Suits t ((s.setPhase u phase).phase t) (x t) := by
  intro t
  by_cases ht : t = u
  · subst ht
    rwa [setPhase_self]
  · rw [setPhase_other _ _ ht]
    exact hf t

theorem Suits.over {x : Left n} (h : Suits t phase x) (hh : phase ≠ .handling)
    (hp : ∀ sleep, phase ≠ .pausing sleep) : x.over = true := by
  unfold Suits at h
  split at h
  · contradiction
  · exact absurd rfl (hp _)
  · exact h

theorem Suits.notified {x : Left n} (h : Suits t phase x) : Suits t phase.notified x := by
  unfold Phase.notified
  split <;> exact h

theorem Suits.tested {x : Left n} (h : Suits t phase x) (ht : phase.tested b = some phase') :
    Suits t phase' x := by
  unfold Phase.tested at ht
  split at ht
  · cases ht
    split <;> exact h
  · cases ht
    split
    · exact h
    · trivial
  · contradiction

theorem LifeStep.suits (h : LifeStep s l s') (hi : InInit s) (hping : FirstPing s)
    (hf : ∀ t, Suits t (s.phase t) (x t)) (hrepl : x (.receiver .repl) = .nothing)
    (hl : ∀ tag, l ≠ .receive tag false)
    (hdone : ∀ t, l = .proceed t → s.phase t ≠ .initializing → (x t).over = true) :
    ∀ t, Suits t (s'.phase t) (x t) := by
  have hnothing : (x (.receiver .repl)).over = true := by
    rw [hrepl]
    rfl
  cases h with
  | main call rest hm hc =>
    cases hc with
    | starts tag =>
      have hover : (x (.receiver tag)).over = true := by
        have hsuits := hf (.receiver tag)
        rw [hi.unstarted tag (hm ▸ List.mem_cons_self)] at hsuits
        exact hsuits
      refine suits_setPhase (s := { s with main := rest }) hf ?_
      cases tag <;> exact hover
    | activates | waits | passes | joins => exact hf
  | idles => exact hf
  | obeys code hp hcode =>
    intro t
    rcases handleMessage_phase s code t with h | h <;> rw [h]
    · exact hf t
    · exact (hf t).notified
  | leaves hp => exact suits_setPhase hf hnothing
  | ends hp => exact suits_setPhase hf hnothing
  | stops call rest hp hc =>
    cases hc with
    | threw => exact hf
    | told tag ha => exact suits_setPhase hf hnothing
    | skipped tag ha => exact suits_setPhase hf hnothing
    | sent tag => exact suits_setPhase (s := s.setShutdownSent tag true) hf hnothing
    | lowered => exact suits_setPhase (s := { s with pingThreadIsUp := false }) hf hnothing
    | joined => exact suits_setPhase hf hnothing
    | cleared tag => exact suits_setPhase (s := s.setActive tag false) hf hnothing
  | closes hp =>
    exact suits_setPhase hf ((hf (.receiver .client)).over (by simp [hp]) (by simp [hp]))
  | finishes tag htag hp hs =>
    exact suits_setPhase (s := s.setShutdownSent tag false) hf
      ((hf (.receiver tag)).over (by simp [hp]) (by simp [hp]))
  | takes tag => exact absurd rfl (hl tag)
  | tests t phase hp => exact suits_setPhase hf ((hf t).tested hp)
  | wakes t hp => exact suits_setPhase hf (hf t).notified
  | inits tag hp =>
    exact suits_setPhase hf ((hf (.receiver tag)).over (by simp [hp]) (by simp [hp]))
  | initsPing hp =>
    have hunstarted := hping (by simp [hp, early])
    refine suits_setPhase (suits_setPhase hf ?_) ?_
    · exact (hf (.receiver .failureDetection)).over (by simp [hp]) (by simp [hp])
    · exact (hf .ping).over (by simp [hunstarted]) (by simp [hunstarted])
  | handles tag hp => exact suits_setPhase hf (hdone _ rfl (by simp [hp]))
  | rounds hp =>
    have hover := hdone .ping rfl (by simp [hp])
    refine suits_setPhase hf ?_
    split <;> exact hover

theorem Becomes.early (h : Becomes s s' t phase) (he : early phase = true) (hi : InInit s) :
    early (s.phase t) = true := by
  cases h with
  | same => exact he
  | notified =>
    revert he
    generalize s.phase t = before
    unfold Phase.notified
    split <;> exact id
  | started tag rest hm hrest hu =>
    subst hu
    rw [hi.unstarted tag (hm ▸ List.mem_cons_self)]
    rfl
  | tested phase ht =>
    generalize s.phase t = before at ht
    unfold Phase.tested at ht
    split at ht
    · rfl
    · cases ht
      split at he <;> contradiction
    · contradiction
  | stopping | ended | finished | took | ready | pings | pinged => contradiction

end Threads

/-! Pieces of the managers' work, each done by one thread. -/

section Work
variable {node : Server.Node n}

theorem act_receiver (h : Server.act rank node a = some out)
    (ha : ∀ timedOut now, a ≠ .run t timedOut now) (ht : ∀ k, t ≠ .spawned k) :
    out.state.threads t = node.threads t := by
  have hthread := (turned_of_turns (turns_of_act h)).thread t
  generalize out.state.threads t = ops at hthread
  cases hthread with
  | same => rfl
  | next timedOut now op rest ops out' hrun => exact absurd hrun (ha timedOut now)
  | first ops hrun hspawned => exact absurd hspawned (ht _)

theorem act_packet (h : Server.act rank node a = some out)
    (ha : ∀ now, a ≠ .handleConsensus now) (hr : a ≠ .resetContext) :
    out.state.received = node.received ∧
      out.state.consensus.resetting = node.consensus.resetting := by
  cases serverActs_of_act h with
  | connects | locks | replies | hangsUp | elects | fails | recovers => exact ⟨rfl,rfl⟩
  | calls value now cout hc hacts =>
    refine ⟨rfl,?_⟩
    cases hacts
    rfl
  | proceeds value now c cout hc hacts =>
    refine ⟨rfl,?_⟩
    cases hacts <;> rfl
  | handles now => exact absurd rfl (ha now)
  | resets => exact absurd rfl hr
  | runs t timedOut now op rest ops out' ht he =>
    obtain ⟨hconsensus,hreceived⟩ := exec_consensus he
    refine ⟨hreceived,?_⟩
    rw [Server.Node.setThread_consensus, hconsensus]

/-- The steps of the client manager's thread. -/
def byClient : Server.Action n → Bool
  | .connect | .disallowRecovery | .disconnect | .replicate _ _ | .proceed _ | .reply => true
  | _ => false

theorem act_client (h : Server.act rank node a = some out) (ha : byClient a = false) :
    out.state.client = node.client := by
  cases serverActs_of_act h with
  | runs t timedOut now op rest ops out' ht he => exact (exec_frame he).client
  | handles | resets | elects | fails | recovers => rfl
  | _ => contradiction

end Work

section Left
variable {node : Controlled.Node n} {work : Heartbeat.Node n}

/-- The sections that a thread works through. -/
def sectionsOf : Thread → Option Server.ThreadId
  | .receiver .leaderElection => some .electionReceiver
  | .receiver .failureDetection => some .failureReceiver
  | _ => none

theorem sectionsOf_election : sectionsOf t = some .electionReceiver ↔
    t = .receiver .leaderElection := by
  unfold sectionsOf
  split <;> simp_all

theorem sectionsOf_failure : sectionsOf t = some .failureReceiver ↔
    t = .receiver .failureDetection := by
  unfold sectionsOf
  split <;> simp_all

theorem sectionsOf_spawned (t : Thread) (k : Nat) : sectionsOf t ≠ some (.spawned k) := by
  unfold sectionsOf
  split <;> simp

theorem left_setThread (work : Heartbeat.Node n) (u : Server.ThreadId)
    (ops : List (Server.Op n)) (request : Option String) (ht : sectionsOf t ≠ some u) :
    left { work with server := work.server.setThread u ops } request t = left work request t := by
  have hother : ∀ u', sectionsOf t = some u' →
      (work.server.setThread u ops).threads u' = work.server.threads u' := by
    intro u' hu
    refine Server.Node.setThread_other _ _ _ ?_
    rintro rfl
    exact ht hu
  cases t with
  | ping => rfl
  | receiver tag =>
    cases tag with
    | leaderElection => simp only [left, hother .electionReceiver rfl]
    | failureDetection => simp only [left, hother .failureReceiver rfl]
    | consensus | client | repl => rfl

theorem left_spawn (work : Heartbeat.Node n) (ops : List (Server.Op n)) (request : Option String)
    (t : Thread) : left { work with server := work.server.spawn ops } request t =
      left work request t :=
  left_setThread work (.spawned work.server.spawned) ops request (sectionsOf_spawned t _)

theorem left_checkTimeStamp (rank : Fin n) (work : Heartbeat.Node n) (j : Fin n) (cur : Int)
    (request : Option String) (t : Thread) :
    left (Heartbeat.checkTimeStamp rank work j cur) request t = left work request t := by
  unfold Heartbeat.checkTimeStamp
  split
  · exact left_spawn _ _ _ _
  · split
    · split
      · exact left_spawn _ _ _ _
      · rfl
    · rfl

theorem left_pingThread (work : Heartbeat.Node n) (ops : List (Heartbeat.PingOp n))
    (request : Option String) (ht : t ≠ .ping) :
    left { work with pingThread := ops } request t = left work request t := by
  cases t with
  | ping => exact absurd rfl ht
  | receiver tag => cases tag <;> rfl

theorem left_pingCheck (rank : Fin n) (work : Heartbeat.Node n) (cur : Int)
    (request : Option String) (ht : t ≠ .ping) :
    left (Heartbeat.pingCheck rank work cur).state request t = left work request t := by
  unfold Heartbeat.pingCheck
  split
  · exact left_pingThread _ _ _ ht
  · exact (left_pingThread _ _ _ ht).trans (left_checkTimeStamp _ _ _ _ _ _)
  · exact left_pingThread _ _ _ ht

/-- A thread that waits, or is held up, has its part of the state to itself. The client receiver
goes from one session to the next without a message to handle. -/
theorem server_left {out : Server.Result n} (hp : permits node (.server a now) = true)
    (hs : Server.act rank node.work.server a = some out)
    (ht : node.control.phase t ≠ .handling) (times : Fin n → Int) :
    left { node.work with server := out.state, timeStamps := times }
      (requestAfter node (.server a now)) t = left node.work node.request t ∨
    (t = .receiver .client ∧ node.control.phase t = .receiving ∧
      (left { node.work with server := out.state, timeStamps := times }
        (requestAfter node (.server a now)) t).over = (left node.work node.request t).over) := by
  have hwork : ∀ {u}, node.works u = true → t ≠ u := by
    rintro u hu rfl
    exact ht (eq_of_beq hu)
  have hsame : ∀ u, sectionsOf t = some u →
      out.state.threads u = node.work.server.threads u := by
    intro u hu
    refine act_receiver hs ?_ ?_
    · rintro timedOut k rfl
      cases u with
      | electionReceiver => exact hwork hp (sectionsOf_election.mp hu)
      | failureReceiver => exact hwork hp (sectionsOf_failure.mp hu)
      | spawned k => exact sectionsOf_spawned t k hu
    · rintro k rfl
      exact sectionsOf_spawned t k hu
  cases t with
  | ping => exact .inl rfl
  | receiver tag =>
    cases tag with
    | repl => exact .inl rfl
    | leaderElection => exact .inl (by simp only [left, hsame .electionReceiver rfl])
    | failureDetection => exact .inl (by simp only [left, hsame .failureReceiver rfl])
    | consensus =>
      obtain ⟨hreceived,hresetting⟩ := act_packet hs
        (by rintro k rfl; exact hwork hp rfl) (by rintro rfl; exact hwork hp rfl)
      exact .inl (by simp only [left, hreceived, hresetting])
    | client =>
      cases hclient : byClient a with
      | false =>
        have hsame := act_client hs hclient
        left
        cases a with
        | connect | disallowRecovery | disconnect | replicate | proceed | reply => contradiction
        | _ => simp only [left, hsame, requestAfter]
      | true =>
        cases serverActs_of_act hs with
        | connects hc | locks hc | hangsUp hc =>
          exact .inr ⟨rfl,eq_of_beq hp,by simp [left, Left.over, serving, hc, requestAfter]⟩
        | calls =>
          simp only [permits, Bool.and_eq_true] at hp
          exact absurd rfl (hwork hp.1)
        | proceeds | replies => exact absurd rfl (hwork hp)
        | _ => contradiction

theorem work_left {out : Heartbeat.Result n} (hp : permits node a = true)
    (ho : Heartbeat.act rank node.work a = some out) (ht : node.control.phase t ≠ .handling) :
    left out.state (requestAfter node a) t = left node.work node.request t ∨
    (t = .receiver .client ∧ node.control.phase t = .receiving ∧
      (left out.state (requestAfter node a) t).over = (left node.work node.request t).over) := by
  cases a with
  | pingCheck cur =>
    simp only [permits, Node.works, Bool.and_eq_true, beq_iff_eq] at hp
    cases ho
    exact .inl (left_pingCheck _ _ _ _ (by rintro rfl; exact ht hp.1))
  | handlePing now =>
    obtain ⟨src,-,rfl⟩ := Option.map_eq_some_iff.mp ho
    left
    cases t with
    | ping => rfl
    | receiver tag =>
      cases tag with
      | failureDetection => exact absurd (eq_of_beq hp) ht
      | _ => rfl
  | server a now =>
    simp only [Heartbeat.act, Heartbeat.serve] at ho
    split at ho
    · contradiction
    · contradiction
    · obtain ⟨sout,hs,rfl⟩ := Option.map_eq_some_iff.mp ho
      exact server_left hp hs ht _

/-- The request is of no concern to the other threads. -/
theorem left_request (work : Heartbeat.Node n) (request request' : Option String)
    (ht : t ≠ .receiver .client) : left work request t = left work request' t := by
  cases t with
  | ping => rfl
  | receiver tag =>
    cases tag with
    | client => exact absurd rfl ht
    | _ => rfl

theorem done_over (h : done node t = true) : (left node.work node.request t).over = true := by
  cases t with
  | ping => exact h
  | receiver tag =>
    cases tag with
    | repl => rfl
    | leaderElection => simpa [left, Left.over, done] using h
    | failureDetection | consensus => exact h
    | client =>
      simp only [done, Bool.and_eq_true, beq_iff_eq] at h
      simp [left, Left.over, serving, h.1, h.2]

theorem accept_dropped {y : Heartbeat.Node n} (h : Heartbeat.accept rank work tag src m = some y)
    (hd : work.server.dropsFrom rank src tag = true) : y = work := by
  cases m with
  | ping =>
    simp only [Heartbeat.accept, Option.ite_none_right_eq_some] at h
    obtain ⟨⟨rfl,-⟩,-⟩ := h
    simp [Server.Node.dropsFrom, messageShouldDrop] at hd
  | server m =>
    simp only [Heartbeat.accept, Option.ite_none_left_eq_some] at h
    obtain ⟨x,hx,rfl⟩ := Option.map_eq_some_iff.mp h.2
    have hsame : x = work.server := by
      unfold Server.accept at hx
      dsimp only at hx
      split at hx <;> simp_all
    rw [hsame]

/-- A receiver takes one message, and leaves the others' alone. -/
theorem accept_left {y : Heartbeat.Node n} (h : Heartbeat.accept rank work tag src m = some y)
    (hd : work.server.dropsFrom rank src tag = false) (request : Option String) :
    (left y request (.receiver tag)).untouched = true ∧
    ∀ t, t ≠ .receiver tag → left y request t = left work request t := by
  cases m with
  | ping =>
    simp only [Heartbeat.accept, Option.ite_none_right_eq_some, Option.some.injEq] at h
    obtain ⟨⟨rfl,-,hidle⟩,rfl⟩ := h
    refine ⟨by simp [left, Left.untouched, hidle],?_⟩
    intro t ht
    cases t with
    | ping => rfl
    | receiver tag =>
      cases tag with
      | failureDetection => exact absurd rfl ht
      | _ => rfl
  | server m =>
    simp only [Heartbeat.accept, Option.ite_none_left_eq_some] at h
    obtain ⟨hpinged,h⟩ := h
    obtain ⟨x,hx,rfl⟩ := Option.map_eq_some_iff.mp h
    cases accepts_of_accept hx with
    | dropped _ _ _ hdrops =>
      rw [hd] at hdrops
      contradiction
    | consensus src packet hr hb =>
      refine ⟨by simp [left, Left.untouched, hb],?_⟩
      intro t ht
      cases t with
      | ping => rfl
      | receiver tag =>
        cases tag with
        | consensus => exact absurd rfl ht
        | _ => rfl
    | election src m hidle =>
      refine ⟨by simp [left, Left.untouched],?_⟩
      exact fun t ht => left_setThread _ _ _ _ (fun hu => ht (sectionsOf_election.mp hu))
    | failure src m hidle =>
      have hnone : work.pinged = none := by simpa using hpinged
      refine ⟨by simp [left, Left.untouched, hnone],?_⟩
      exact fun t ht => left_setThread _ _ _ _ (fun hu => ht (sectionsOf_failure.mp hu))

theorem left_elects {out : Heartbeat.Result n} (request : Option String) (t : Thread)
    (ho : Heartbeat.act rank work (.server .startElection work.timeStamps) = some out) :
    left out.state request t = left work request t := by
  simp only [Heartbeat.act, Heartbeat.serve, Server.act, Option.map_some, Option.some.injEq] at ho
  subst ho
  exact left_spawn work _ request t

end Left

/-! A server under control. -/

section Orderly
variable {node : Controlled.Node n} {out : Controlled.Result n}

theorem Orderly.act (h : Orderly node) (hi : InInit node.control)
    (hping : FirstPing node.control) (ha : ControlledActs rank node a out) :
    Orderly out.state := by
  cases ha with
  | moves l control hs hr hl =>
    exact (lifeStep_of_step hs).2.suits hi hping h rfl hr (fun t he hn => done_over (hl t he hn))
  | elects control o hs hp ho =>
    have hsuits := (lifeStep_of_step hs).2.suits hi hping h rfl (by simp)
      (fun t he hn => by cases he; exact absurd hp hn)
    intro t
    have hleft := left_elects node.request t ho
    rw [onward, hleft]
    exact hsuits t
  | beats control hs hp =>
    have hsuits := (lifeStep_of_step hs).2.suits hi hping h rfl (by simp) (by simp)
    intro t
    by_cases ht : t = .ping
    · subst ht
      have hphase : (onward node control (Heartbeat.pingCheck rank node.work 0)).state.control.phase
          .ping = .handling := hp
      rw [hphase]
      trivial
    · have hleft := left_pingCheck rank node.work 0 node.request ht
      rw [onward, hleft]
      exact hsuits t
  | reads value control hc hs =>
    cases (lifeStep_of_step hs).2 with
    | takes tag htag hp =>
      intro t
      by_cases ht : t = .receiver .client
      · subst ht
        rw [setPhase_self]
        simp [Suits, left, hc, Left.untouched]
      · rw [setPhase_other _ _ ht, left_request _ _ node.request ht]
        exact h t
  | works a o hrunning hp ho =>
    intro t
    have hphase : (onward { node with request := requestAfter node a } node.control o).state.control =
        node.control := rfl
    rw [hphase]
    by_cases ht : node.control.phase t = .handling
    · rw [ht]
      trivial
    · have hsuits := h t
      rcases work_left hp ho ht with hleft | ⟨-,hreceiving,hover⟩
      · rw [onward, hleft]
        exact hsuits
      · rw [hreceiving] at hsuits ⊢
        exact hover.trans hsuits

theorem Orderly.accept {x : Controlled.Node n} (h : Orderly node)
    (hx : Controlled.accept rank node tag src m = some x) : Orderly x := by
  obtain ⟨control,y,hs,hy,rfl⟩ := controlled_accept_cases hx
  cases hd : node.work.server.dropsFrom rank src tag with
  | true =>
    rw [accept_dropped hy hd]
    exact h
  | false =>
    obtain ⟨huntouched,hother⟩ := accept_left hy hd node.request
    cases (lifeStep_of_step hs).2 with
    | takes tag htag hp =>
      intro t
      by_cases ht : t = .receiver tag
      · subst ht
        simp only [Bool.false_eq_true, ↓reduceIte, setPhase_self]
        exact huntouched
      · simp only [Bool.false_eq_true, ↓reduceIte]
        rw [setPhase_other _ _ ht, hother t ht]
        exact h t

end Orderly

/-- Receivers that are held up stay so, and keep what they have taken. -/
def Keeps (node node' : Controlled.Node n) : Prop :=
  ∀ tag sleep, node.control.phase (.receiver tag) = .pausing sleep →
    (∃ sleep', node'.control.phase (.receiver tag) = .pausing sleep') ∧
    left node'.work node'.request (.receiver tag) = left node.work node.request (.receiver tag)

theorem Keeps.refl (node : Controlled.Node n) : Keeps node node := fun _ sleep hp => ⟨⟨sleep,hp⟩,rfl⟩

theorem Keeps.trans {node node' node'' : Controlled.Node n} (h : Keeps node node')
    (h' : Keeps node' node'') : Keeps node node'' := by
  intro tag sleep hp
  obtain ⟨⟨sleep',hp'⟩,hleft⟩ := h tag sleep hp
  obtain ⟨hpauses,hleft'⟩ := h' tag sleep' hp'
  exact ⟨hpauses,hleft'.trans hleft⟩

end Algorep.Proofs
