import Algorep.Proofs.ReplicatedCommands
import Algorep.Proofs.SubmittedData

namespace Algorep.Proofs
open Kit Program Program.Server

/-! Servers log nothing but commands of the clients. -/

/-- A last line without a line end is a command too. -/
theorem commands_rest {file : List Char} (h : '\n' ∉ file) (hne : file ≠ []) :
    commands file = [String.ofList file] := by
  rw [commands, List.splitOn_eq_singleton h]
  simp [hne]

/-- A line that a client reads before it has met an empty one is a command of its file. -/
theorem readings_commands {file : List Char} (h : ∀ j ≤ k, (readings file (j + 1)).1 ≠ []) :
    String.ofList (readings file (k + 1)).1 ∈ commands file := by
  induction k generalizing file with
  | zero =>
    have hfirst := h 0 (by omega)
    by_cases hend : '\n' ∈ file
    · have hline : (readings file 1).1 = file.takeWhile (· != '\n') := by
        simp [readings, Client.getline, hend]
      rw [hline] at hfirst
      rw [commands_cons hend, if_neg (by simpa using hfirst), hline]
      exact List.mem_cons_self
    · rw [(readings_rest hend 0).1] at hfirst ⊢
      rw [commands_rest hend hfirst]
      exact List.mem_cons_self
  | succ k ih =>
    have hfirst := h 0 (by omega)
    by_cases hend : '\n' ∈ file
    · have hne : file.takeWhile (· != '\n') ≠ [] := by
        simpa [readings, Client.getline] using hfirst
      rw [commands_cons hend, if_neg (by simpa using hne), readings_tail hend]
      apply List.mem_cons_of_mem
      apply ih
      intro j hj
      rw [← readings_tail hend]
      exact h (j + 1) (by omega)
    · rw [(readings_rest hend 0).1] at hfirst
      rw [(readings_rest hend _).1, commands_rest hend hfirst]
      exact List.mem_cons_self

/-- The value is a command of some client. -/
def Commanded (files : Fin m → List Char) (value : String) : Prop :=
  ∃ c, value ∈ commands (files c)

/-- A value is a command; numbers may be any. -/
def ofCommands (files : Fin m → List Char) : Datum → Prop
  | .value value => Commanded files value
  | .number _ => True

/-- How far the clients are, and that all they and the servers have at hand are commands. -/
structure Fed (files : Fin m → List Char) (s : Service m n) : Prop where
  clients : ∀ c, ∃ k, Progress (files c) k (s.session.clients c)
  requests : ∀ name v, .replicate v ∈ (s.connections name).toServer → Commanded files v
  servers : ∀ i, Holds (ofCommands files) (s.cluster.nodes i)
  messages : Conveys (ofCommands files) s.cluster

/-- A client that is about to send a command has read it. -/
theorem Progress.commanded {client : Client.State} (h : Progress file k client)
    (hphase : client.phase = .sending) : String.ofList client.line ∈ commands file := by
  have hreads := congrArg Prod.fst h.reads
  simp only [hphase, reduceCtorEq, or_self, ↓reduceIte] at hreads
  have hhas := h.has (by simp [hphase]) (by simp [hphase])
  simp only [hphase, reduceCtorEq, false_iff] at hhas
  rw [hreads] at hhas ⊢
  apply readings_commands
  intro j hj
  rcases Nat.lt_or_eq_of_le hj with hlt | rfl
  · exact h.done j hlt
  · exact hhas

section Service
variable {s t : Service m n} {files : Fin m → List Char}

theorem clientSide_requests {connection connection' : Service.Connection}
    (h : Service.clientSide value connection a = some connection')
    (hv : .replicate v ∈ connection'.toServer) :
    .replicate v ∈ connection.toServer ∨ (a = .send ∧ v = value) := by
  unfold Service.clientSide at h
  split at h
  · contradiction
  · cases h
    simpa using hv
  · split at h
    · split at h
      · cases h
        exact .inl hv
      · contradiction
    · contradiction
  · cases h
    simpa using hv
  · cases h
    exact .inl hv

theorem take_requests {connection connection' : Service.Connection}
    (h : Service.take request connection = some connection') :
    connection.toServer = request::connection'.toServer := by
  unfold Service.take at h
  split at h
  · split at h
    · rename_i hlist hnext
      cases h
      rw [hlist, hnext]
    · contradiction
  · contradiction

/-- What a server leaves of its requests, and that it replicates none but them. -/
theorem serverSide_requests {connection connection' : Service.Connection}
    (h : Service.serverSide node connection a = some connection') :
    (∀ r ∈ connection'.toServer, r ∈ connection.toServer) ∧
      ∀ v now, a = .replicate v now → .replicate v ∈ connection.toServer := by
  unfold Service.serverSide at h
  split at h
  · contradiction
  · rw [take_requests h]
    refine ⟨fun r hr => List.mem_cons_of_mem _ hr,?_⟩
    rintro v now he
    cases he
    exact List.mem_cons_self
  · rw [take_requests h]
    exact ⟨fun r hr => List.mem_cons_of_mem _ hr,by simp⟩
  · split at h <;> cases h <;> exact ⟨fun r hr => hr,by simp⟩
  · rename_i hno _ _
    cases h
    refine ⟨fun r hr => hr,?_⟩
    rintro v now rfl
    exact absurd rfl (hno v now)

/-- A move of the servers is a step of their cluster. -/
theorem server_step (hs : Service.step elected s (.server l) = some (t,e)) :
    ∃ e', (Server.process elected).Step s.cluster l t.cluster e' ∧ t.session = s.session ∧
      Service.serve s l = some t.connections := by
  simp only [Service.step] at hs
  split at hs
  · rename_i cluster es connections hcluster hserve
    cases hs
    exact ⟨es,LaneProcess.step_of_eq hcluster,rfl,hserve⟩
  · contradiction

theorem fed_server (h : Fed files s) (hs : Service.step elected s (.server l) = some (t,e)) :
    Fed files t := by
  obtain ⟨e',hstep,hsession,hserve⟩ := server_step hs
  have hrequests : (∀ name, ∀ r ∈ (t.connections name).toServer, r ∈ (s.connections name).toServer) ∧
      ∀ i v now, l = .act i (.replicate v now) →
        ∃ name, .replicate v ∈ (s.connections name).toServer := by
    cases l with
    | receive k src dst =>
      have heq : s.connections = t.connections := Option.some.inj hserve
      rw [heq]
      exact ⟨fun name r hr => hr,by simp⟩
    | act i a =>
      simp only [Service.serve] at hserve
      split at hserve
      · rename_i name hname
        rw [Option.map_eq_some_iff] at hserve
        obtain ⟨connection,hn,heq⟩ := hserve
        obtain ⟨hsub,hnext⟩ := serverSide_requests hn
        rw [← heq]
        refine ⟨?_,?_⟩
        · intro name' r hr
          by_cases hname' : name' = name
          · subst hname'
            rw [Function.update_self] at hr
            exact hsub r hr
          · rwa [Function.update_of_ne hname'] at hr
        · rintro i' v now he
          cases he
          exact ⟨name,hnext v now rfl⟩
      · simp only [Option.ite_none_left_eq_some, Option.some.injEq] at hserve
        obtain ⟨hu,heq⟩ := hserve
        rw [← heq]
        refine ⟨fun name r hr => hr,?_⟩
        rintro i' v now he
        cases he
        simp [Service.usesConnection] at hu
  have hv : ∀ i a, l = .act i a → ∀ d ∈ broughtIn a, ofCommands files d := by
    intro i a he d hd
    cases d with
    | number => trivial
    | value v =>
      obtain ⟨now,rfl⟩ : ∃ now, a = .replicate v now := by
        cases a <;> simp [broughtIn] at hd
        exact ⟨_,by rw [hd]⟩
      obtain ⟨name,hmem⟩ := hrequests.2 i v now he
      exact h.requests name v hmem
  obtain ⟨hservers,hmessages⟩ := step_holds hstep ⟨h.servers,h.messages⟩ trivial hv
  refine ⟨hsession ▸ h.clients,?_,hservers,hmessages⟩
  intro name v hmem
  exact h.requests name v (hrequests.1 name _ hmem)

theorem fed_step (h : Fed files s) (hs : Service.step elected s l = some (t,e)) : Fed files t := by
  cases l with
  | server l => exact fed_server h hs
  | shutdown =>
    cases steps_of_step hs
    exact ⟨h.clients,h.requests,h.servers,h.messages⟩
  | connect c i =>
    cases steps_of_step hs with
    | connect _ _ out hphase ho =>
      have hstep : (Server.process elected).Step s.cluster (.act i .connect) _ _ :=
        .act i Server.Action.connect out ho
      obtain ⟨hservers,hmessages⟩ := step_holds hstep ⟨h.servers,h.messages⟩
        trivial (by simp [broughtIn])
      refine ⟨?_,?_,hservers,hmessages⟩
      · intro c'
        by_cases hc : c' = c
        · subst hc
          obtain ⟨k,hp⟩ := h.clients c'
          have hact : Client.act 0 0 [] (s.session.clients c') .connect =
              some ({ s.session.clients c' with phase := .sending },[],[]) := by
            simp [Client.act, hphase]
          exact ⟨k,by simpa using hp.step hact⟩
        · simpa [hc] using h.clients c'
      · intro name v hmem
        by_cases hname : name = (c,s.made c + 1)
        · simp [hname] at hmem
        · dsimp only at hmem
          rw [Function.update_of_ne hname] at hmem
          exact h.requests name v hmem
  | client c a =>
    cases steps_of_step hs with
    | @client ls es' _ _ client connection hc hn =>
      refine ⟨?_,?_,h.servers,h.messages⟩
      · intro c'
        by_cases hcc : c' = c
        · subst hcc
          obtain ⟨k,hp⟩ := h.clients c'
          exact ⟨k + ls.length,by simpa using hp.step hc⟩
        · simpa [hcc] using h.clients c'
      · intro name v hmem
        by_cases hname : name = (c,s.made c)
        · subst hname
          dsimp only at hmem
          rw [Function.update_self] at hmem
          rcases clientSide_requests hn hmem with hold | ⟨rfl,rfl⟩
          · exact h.requests _ v hold
          · obtain ⟨k,hp⟩ := h.clients c
            refine ⟨c,hp.commanded ?_⟩
            simp only [Client.act] at hc
            split at hc <;> simp_all
        · dsimp only at hmem
          rw [Function.update_of_ne hname] at hmem
          exact h.requests name v hmem

theorem reach_fed {ok : Service.Guard m n} (hr : (Service.service elected files).Reach ok s es) :
    Fed files s := by
  induction hr with
  | start =>
    refine ⟨?_,by simp [Service.service],start_holds elected trivial,?_⟩
    · intro c
      refine ⟨0,⟨by simp,?_,?_⟩⟩ <;>
        simp [Service.service, Program.Client.session, readings]
    · intro k a b m hm
      contradiction
  | step _ _ hs ih => exact fed_step ih hs

/-- Every entry of every server's log is a command of some client's file, in any run of
clients and servers, with elections, failures and recoveries. -/
theorem logged_commands (elected : Option (Fin n)) (files : Fin m → List Char)
    (hr : (Service.service elected files).Reach Machine.free s es) (i : Fin n) :
    ∀ v ∈ (s.cluster.nodes i).log, Commanded files v :=
  ((reach_fed hr).servers i).consensus.log

/-- Server `j` learns of the command that server `i` has replicated. -/
def learnedElsewhere (c : Fin m) (i j : Fin n) (value : String) : List (Service.Move m n) :=
  replicatedOnce c i value ++ ((List.replicate 3 (Server.Move.consensus i j 30)).flatten).map .server

theorem learnedElsewhere_end : Service.outcome (n := 2) (some 0) oneCommand (fun _ _ _ => true)
    (learnedElsewhere 0 0 1 "v") (fun r => (r.1.cluster.nodes 1).log) = some ["v"] := by
  decide

theorem logged_commands_learnedElsewhere : ∃ (s : Service 1 2) (es : Service.History 1 2),
    (Service.service (some 0) oneCommand).Reach Machine.free s es ∧
      "v" ∈ (s.cluster.nodes 1).log ∧ Commanded oneCommand "v" := by
  obtain ⟨s,es,hr,h⟩ := Machine.exists_reach (fun _ _ _ _ => trivial) learnedElsewhere_end
  have hmem : "v" ∈ (s.cluster.nodes 1).log := by simp [h]
  exact ⟨s,es,hr,hmem,logged_commands (some 0) oneCommand hr 1 "v" hmem⟩

end Service

end Algorep.Proofs
