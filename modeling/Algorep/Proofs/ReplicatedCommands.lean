import Algorep.Proofs.CommandCounts
import Algorep.Proofs.ServiceSteps

namespace Algorep.Proofs
open Kit Program Program.Service

/-- The values that servers with `p` have appended for the requests of client `c`, in order. -/
def servedAt (p : Fin n → Bool) (c : Fin m) (es : Service.History m n) : List String :=
  es.filterMap (fun e => match e with
    | .appended c' i value => if c' = c ∧ p i then some value else none
    | _ => none)

abbrev served (c : Fin m) (es : Service.History m n) : List String := servedAt (fun _ => true) c es

abbrev servedBy (i : Fin n) (c : Fin m) (es : Service.History m n) : List String :=
  servedAt (· == i) c es

/-- The lines of a command file before its first empty one. -/
def commands (file : List Char) : List String :=
  ((file.splitOn '\n').takeWhile (!·.isEmpty)).map String.ofList

theorem servedAt_append (p : Fin n → Bool) (es es' : Service.History m n) :
    servedAt p c (es ++ es') = servedAt p c es ++ servedAt p c es' :=
  List.filterMap_append

theorem served_append (es es' : Service.History m n) :
    served c (es ++ es') = served c es ++ served c es' :=
  servedAt_append _ _ _

@[simp] theorem served_nil (p : Fin n → Bool) : servedAt p (m := m) c [] = [] := rfl

@[simp] theorem served_client (p : Fin n → Bool) (es : List Client.Event) :
    servedAt p c (es.map (.client c')) = [] := by
  simp [servedAt]

@[simp] theorem served_server (p : Fin n → Bool) (es : List (Server.Event n)) :
    servedAt p (m := m) c (es.map (.server i)) = [] := by
  simp [servedAt]

@[simp] theorem served_gaveUp (p : Fin n → Bool) (a : Client.Action) :
    servedAt p c (gaveUp c' a) = [] := by
  cases a <;> rfl

@[simp] theorem served_appended (p : Fin n → Bool) (v : Option String) :
    servedAt p c ((v.map (.appended c' i)).toList) = if c' = c ∧ p i then v.toList else [] := by
  cases v with
  | none => simp
  | some x => by_cases hc : c' = c ∧ p i <;> simp [servedAt, hc]

/-- `done` has been appended in order, and nothing else if the client never gave up. -/
structure Tally (es : Service.History m n) (c : Fin m) (done : List String) : Prop where
  sublist : done.Sublist (served c es)
  exact : .gaveUp c ∉ es → served c es = done

theorem Tally.extend (h : Tally es c done) (hn : .gaveUp c ∉ es → served c e = []) :
    Tally (es ++ e) c done := by
  refine ⟨?_,?_⟩
  · rw [served_append]
    exact h.sublist.trans (List.sublist_append_left _ _)
  · intro hg
    have hes : .gaveUp c ∉ es := fun hm => hg (List.mem_append_left _ hm)
    rw [served_append, hn hes, List.append_nil]
    exact h.exact hes

theorem Tally.grow (h : Tally es c done) (hv : served c e = [v]) :
    Tally (es ++ e) c (done ++ [v]) := by
  refine ⟨?_,?_⟩
  · rw [served_append, hv]
    exact h.sublist.append (List.Sublist.refl _)
  · intro hg
    rw [served_append, hv, h.exact (fun hm => hg (List.mem_append_left _ hm))]

/-- Once the client has given up, the last value is no longer owed. -/
theorem Tally.giveUp (h : Tally es c (done ++ more)) (hg : .gaveUp c ∈ e) :
    Tally (es ++ e) c done := by
  refine ⟨?_,fun hno => absurd (List.mem_append_right _ hg) hno⟩
  rw [served_append]
  exact (List.sublist_append_left _ _).trans (h.sublist.trans (List.sublist_append_left _ _))

/-! The course of a connection. -/

/-- No server serves a request of the connection. -/
def Idle (s : Service m n) (name : Fin m × Nat) : Prop :=
  ∀ i, s.clientConnection i = some name → serving (s.cluster.nodes i).client = false

/-- A connection that leads to nothing any more. -/
structure Abandoned (s : Service m n) (name : Fin m × Nat) : Prop where
  idle : Idle s name
  quiet : ∀ v, .replicate v ∉ (s.connections name).toServer

/-- How far the one request of a connection is, and whether its value has been appended. -/
inductive Course (s : Service m n) (name : Fin m × Nat) (value : String) : Bool → Prop
  | asked (hc : s.connections name = { toServer := [.replicate value] }) (hi : Idle s name) :
      Course s name value false
  | attended (i : Fin n) (hname : s.clientConnection i = some name)
      (hc : s.connections name = {}) (ha : Attends value written (s.cluster.nodes i)) :
      Course s name value written
  | refused (hc : s.connections name = {}) (hi : Idle s name) : Course s name value false
  | answered (hc : s.connections name = { toClient := [.success] }) (hi : Idle s name) :
      Course s name value true

/-- The connection is where it was. -/
structure Agree (s t : Service m n) (name : Fin m × Nat) : Prop where
  same : t.connections name = s.connections name
  idle : Idle s name → Idle t name
  attends : ∀ i v written, s.clientConnection i = some name →
    Attends v written (s.cluster.nodes i) →
      t.clientConnection i = some name ∧ Attends v written (t.cluster.nodes i)

theorem Course.agree (h : Course s name value written) (ha : Agree s t name) :
    Course t name value written := by
  cases h with
  | asked hc hi => exact .asked (ha.same.trans hc) (ha.idle hi)
  | attended i hname hc hattends =>
    obtain ⟨hname',hattends'⟩ := ha.attends i _ _ hname hattends
    exact .attended i hname' (ha.same.trans hc) hattends'
  | refused hc hi => exact .refused (ha.same.trans hc) (ha.idle hi)
  | answered hc hi => exact .answered (ha.same.trans hc) (ha.idle hi)

theorem Abandoned.agree (h : Abandoned s name) (ha : Agree s t name) : Abandoned t name :=
  ⟨ha.idle h.idle,by rw [ha.same]; exact h.quiet⟩

/-! The ledger of a client. -/

def asking : Client.Phase → Bool
  | .sending | .awaiting => true
  | _ => false

/-- The client knows that its command has been replicated, and has not passed the turn on. -/
def answered : Client.Phase → Bool
  | .hangingUp true | .settingTurn => true
  | _ => false

/-- The connection `m_serverConnection` of a client. -/
def lastConnection (s : Service m n) (c : Fin m) : Fin m × Nat := (c,s.made c)

/-- The command a client has read last. -/
def command (s : Service m n) (c : Fin m) : String := String.ofList (s.session.clients c).line

/-- What the servers have done for a client that has passed the turn on after each
command in `done`. -/
structure Ledger (s : Service m n) (es : Service.History m n) (c : Fin m)
    (done : List String) : Prop where
  sending : (s.session.clients c).phase = .sending →
    s.connections (lastConnection s c) = {} ∧ Idle s (lastConnection s c) ∧ Tally es c done
  awaiting : (s.session.clients c).phase = .awaiting →
    ∃ written, Course s (lastConnection s c) (command s c) written ∧
      Tally es c (done ++ if written then [command s c] else [])
  settled : asking (s.session.clients c).phase = false →
    Tally es c (done ++ if answered (s.session.clients c).phase then [command s c] else [])
  spent : .gaveUp c ∉ es → ∀ k ≤ s.made c,
    (k = s.made c → asking (s.session.clients c).phase = false) → Abandoned s (c,k)

/-- What a step that does not concern the client leaves of its ledger. -/
theorem Ledger.agree {s t : Service m n} (h : Ledger s es c done)
    (hclient : t.session.clients c = s.session.clients c) (hmade : t.made c = s.made c)
    (ha : ∀ k, Agree s t (c,k)) (he : served c e = []) : Ledger t (es ++ e) c done := by
  have hlast : lastConnection t c = lastConnection s c := by simp [lastConnection, hmade]
  have hcommand : command t c = command s c := by simp [command, hclient]
  have htally : ∀ L, Tally es c L → Tally (es ++ e) c L := fun L hL => hL.extend (fun _ => he)
  refine ⟨?_,?_,?_,?_⟩
  · intro hphase
    obtain ⟨hc,hi,hL⟩ := h.sending (hclient ▸ hphase)
    rw [hlast]
    exact ⟨(ha _).same.trans hc,(ha _).idle hi,htally _ hL⟩
  · intro hphase
    obtain ⟨written,hcourse,hL⟩ := h.awaiting (hclient ▸ hphase)
    rw [hlast, hcommand]
    exact ⟨written,hcourse.agree (ha _),htally _ hL⟩
  · intro hphase
    rw [hclient] at hphase ⊢
    rw [hcommand]
    exact htally _ (h.settled hphase)
  · intro hg k hk hlive
    rw [hmade] at hk hlive
    rw [hclient] at hlive
    exact (h.spent (fun hm => hg (List.mem_append_left _ hm)) k hk hlive).agree (ha k)

/-- No two servers share a connection, and every connection has been made. -/
structure Wired (s : Service m n) : Prop where
  apart : ∀ i j name, s.clientConnection i = some name → s.clientConnection j = some name → i = j
  known : ∀ i c k, s.clientConnection i = some (c,k) → k ≤ s.made c

/-- `t` is `s` after a step of server `i`, which has the connection `name`. -/
structure Serves (s t : Service m n) (i : Fin n) (a : Server.Action n) (out : Server.Result n)
    (name : Fin m × Nat) (connection : Connection) : Prop where
  step : Attendance (s.cluster.nodes i) a out
  side : serverSide (s.cluster.nodes i) (s.connections name) a = some connection
  seat : s.clientConnection i = some name
  seats : t.clientConnection = s.clientConnection
  mover : t.cluster.nodes i = out.state
  others : ∀ j, j ≠ i → t.cluster.nodes j = s.cluster.nodes j
  connections : t.connections = Function.update s.connections name connection

theorem Serves.agree (h : Serves s t i a out name connection) (hne : name' ≠ name) :
    Agree s t name' := by
  have hother : ∀ j, s.clientConnection j = some name' → j ≠ i := by
    rintro j hj rfl
    rw [h.seat, Option.some.injEq] at hj
    exact hne hj.symm
  refine ⟨by rw [h.connections, Function.update_of_ne hne],?_,?_⟩
  · intro hi j hj
    rw [h.seats] at hj
    rw [h.others j (hother j hj)]
    exact hi j hj
  · intro j v written hj hattends
    rw [h.seats, h.others j (hother j hj)]
    exact ⟨hj,hattends⟩

theorem Serves.idle (h : Serves s t i a out name connection) (hw : Wired s)
    (hout : serving out.state.client = false) : Idle t name := by
  intro j hj
  rw [h.seats] at hj
  obtain rfl := hw.apart _ _ _ hj h.seat
  rwa [h.mover]

theorem Serves.last (h : Serves s t i a out name connection) :
    t.connections name = connection := by
  rw [h.connections, Function.update_self]

theorem Serves.attended (h : Serves s t i a out name connection)
    (ha : Attends value written out.state) (hc : connection = {}) :
    Course t name value written :=
  .attended i (h.seats ▸ h.seat) (h.last.trans hc) (h.mover ▸ ha)

/-- A step of the server of a connection whose request nobody serves: it takes the
request, or leaves the connection alone. -/
theorem Serves.idle_step (h : Serves s t i a out name connection) (hw : Wired s)
    (hi : Idle s name) (hd : ∀ rest, (s.connections name).toServer ≠ .disconnect :: rest) :
    appends (s.cluster.nodes i) a = none ∧
    ((∃ value, s.connections name = { connection with
        toServer := .replicate value :: connection.toServer } ∧
      Attends value false out.state) ∨ (Idle t name ∧ t.connections name = s.connections name)) := by
  rcases idle_serves h.step h.side (hi i h.seat) with ⟨v,hc,hnone,ha⟩ | ⟨hout,hnone,hc | hc⟩
  · exact ⟨hnone,.inl ⟨v,hc,ha⟩⟩
  · exact ⟨hnone,.inr ⟨h.idle hw hout,h.last.trans hc⟩⟩
  · exact absurd (congrArg Connection.toServer hc) (hd _)

/-- The server of a connection goes on with its request, and appends its value at most once. -/
theorem Course.serves (hc : Course s name value written) (hw : Wired s)
    (h : Serves s t i a out name connection) :
    ∃ written', Course t name value written' ∧
      ((written' = written ∧ appends (s.cluster.nodes i) a = none) ∨
      (written = false ∧ written' = true ∧ appends (s.cluster.nodes i) a = some value)) := by
  cases hc with
  | asked hc hi =>
    obtain ⟨hnone,⟨v,htake,ha⟩ | ⟨hidle,hsame⟩⟩ := h.idle_step hw hi (by simp [hc])
    · rw [hc, Connection.mk.injEq, List.cons.injEq, Request.replicate.injEq] at htake
      obtain ⟨⟨rfl,hserver⟩,hclient⟩ := htake
      refine ⟨false,h.attended ha ?_,.inl ⟨rfl,hnone⟩⟩
      cases connection
      simp only at hserver hclient
      rw [← hserver, ← hclient]
    · exact ⟨false,.asked (hsame.trans hc) hidle,.inl ⟨rfl,hnone⟩⟩
  | attended j hname hc ha =>
    obtain rfl := hw.apart _ _ _ h.seat hname
    rcases attended_serves h.step h.side ha with ⟨hout,hnone,hlast⟩ | ⟨hout,hnone,hlast⟩ |
      ⟨hout,hsome,rfl,hlast⟩
    · refine ⟨written,?_,.inl ⟨rfl,hnone⟩⟩
      rw [hc] at hlast
      cases written with
      | false => exact .refused (h.last.trans hlast) (h.idle hw hout)
      | true => exact .answered (h.last.trans hlast) (h.idle hw hout)
    · exact ⟨written,h.attended hout (hlast.trans hc),.inl ⟨rfl,hnone⟩⟩
    · exact ⟨true,h.attended hout (hlast.trans hc),.inr ⟨rfl,rfl,hsome⟩⟩
  | refused hc hi =>
    obtain ⟨hnone,⟨v,htake,-⟩ | ⟨hidle,hsame⟩⟩ := h.idle_step hw hi (by simp [hc])
    · simp [hc] at htake
    · exact ⟨false,.refused (hsame.trans hc) hidle,.inl ⟨rfl,hnone⟩⟩
  | answered hc hi =>
    obtain ⟨hnone,⟨v,htake,-⟩ | ⟨hidle,hsame⟩⟩ := h.idle_step hw hi (by simp [hc])
    · simp [hc] at htake
    · exact ⟨true,.answered (hsame.trans hc) hidle,.inl ⟨rfl,hnone⟩⟩

theorem Abandoned.serves (ha : Abandoned s name) (hw : Wired s)
    (h : Serves s t i a out name connection) :
    Abandoned t name ∧ appends (s.cluster.nodes i) a = none := by
  rcases idle_serves h.step h.side (ha.idle i h.seat) with ⟨v,hc,-,-⟩ | ⟨hout,hnone,hc | hc⟩
  · exact absurd (by rw [hc]; exact List.mem_cons_self) (ha.quiet v)
  · exact ⟨⟨h.idle hw hout,by rw [h.last, hc]; exact ha.quiet⟩,hnone⟩
  · refine ⟨⟨h.idle hw hout,?_⟩,hnone⟩
    intro v hv
    rw [h.last] at hv
    exact ha.quiet v (by rw [hc]; exact List.mem_cons_of_mem _ hv)

/-- The server of the connection the client is waiting on makes a step. -/
theorem Ledger.serves_asking {s t : Service m n} (h : Ledger s es c done) (hw : Wired s)
    (hs : Serves s t i a out (c,s.made c) connection)
    (hclient : t.session.clients c = s.session.clients c) (hmade : t.made c = s.made c)
    (hasking : asking (s.session.clients c).phase = true)
    (he : served c e = (appends (s.cluster.nodes i) a).toList) : Ledger t (es ++ e) c done := by
  have hlast : lastConnection t c = lastConnection s c := by simp [lastConnection, hmade]
  have hcommand : command t c = command s c := by simp [command, hclient]
  refine ⟨?_,?_,?_,?_⟩
  · intro hphase
    obtain ⟨hempty,hi,hL⟩ := h.sending (hclient ▸ hphase)
    rw [lastConnection] at hempty hi
    obtain ⟨hnone,⟨v,htake,-⟩ | ⟨hidle,hsame⟩⟩ := hs.idle_step hw hi (by simp [hempty])
    · simp [hempty] at htake
    · rw [hlast]
      exact ⟨hsame.trans hempty,hidle,hL.extend (fun _ => by rw [he, hnone]; rfl)⟩
  · intro hphase
    obtain ⟨written,hcourse,hL⟩ := h.awaiting (hclient ▸ hphase)
    rw [hlast, hcommand]
    obtain ⟨written',hcourse',⟨rfl,hnone⟩ | ⟨rfl,rfl,hsome⟩⟩ := hcourse.serves hw hs
    · exact ⟨written',hcourse',hL.extend (fun _ => by rw [he, hnone]; rfl)⟩
    · refine ⟨true,hcourse',?_⟩
      have hgrown : Tally (es ++ e) c (done ++ [] ++ [command s c]) :=
        hL.grow (by rw [he, hsome]; rfl)
      simpa using hgrown
  · intro hphase
    rw [hclient, hasking] at hphase
    contradiction
  · intro hg k hk hdone
    rw [hmade] at hk hdone
    rw [hclient, hasking] at hdone
    have hne : k ≠ s.made c := fun heq => absurd (hdone heq) (by simp)
    have hspent := h.spent (fun hm => hg (List.mem_append_left _ hm)) k hk
      (fun heq => absurd heq hne)
    exact hspent.agree (hs.agree (by simp [hne]))

/-- The server of a connection that the client does not wait on makes a step. It appends
nothing, unless the client has given up. -/
theorem Ledger.serves_other {s t : Service m n} (h : Ledger s es c done) (hw : Wired s)
    (hs : Serves s t i a out (c,k) connection)
    (hclient : t.session.clients c = s.session.clients c) (hmade : t.made c = s.made c)
    (hover : k = s.made c → asking (s.session.clients c).phase = false)
    (he : served c e = (appends (s.cluster.nodes i) a).toList) : Ledger t (es ++ e) c done := by
  have hlast : lastConnection t c = lastConnection s c := by simp [lastConnection, hmade]
  have hcommand : command t c = command s c := by simp [command, hclient]
  have hquiet : .gaveUp c ∉ es → served c e = [] := by
    intro hg
    have hspent := h.spent hg k (hw.known i c k hs.seat) hover
    rw [he, (hspent.serves hw hs).2]
    rfl
  have hcurrent : asking (s.session.clients c).phase = true → Agree s t (lastConnection s c) := by
    intro hasking
    refine hs.agree ?_
    rintro hname
    rw [hover (congrArg Prod.snd hname).symm] at hasking
    contradiction
  refine ⟨?_,?_,?_,?_⟩
  · intro hphase
    rw [hclient] at hphase
    have hagree := hcurrent (by rw [hphase]; rfl)
    obtain ⟨hempty,hi,hL⟩ := h.sending hphase
    rw [hlast]
    exact ⟨hagree.same.trans hempty,hagree.idle hi,hL.extend hquiet⟩
  · intro hphase
    rw [hclient] at hphase
    obtain ⟨written,hcourse,hL⟩ := h.awaiting hphase
    rw [hlast, hcommand]
    exact ⟨written,hcourse.agree (hcurrent (by rw [hphase]; rfl)),hL.extend hquiet⟩
  · intro hphase
    rw [hclient] at hphase ⊢
    rw [hcommand]
    exact (h.settled hphase).extend hquiet
  · intro hg k' hk' hdone
    rw [hmade] at hk' hdone
    rw [hclient] at hdone
    have hspent := h.spent (fun hm => hg (List.mem_append_left _ hm)) k' hk' hdone
    by_cases hk : k' = k
    · subst hk
      exact (hspent.serves hw hs).1
    · exact hspent.agree (hs.agree (by simp [hk]))

/-- What the step of a server leaves of the ledger of a client, whether the server has a
connection of that client or of another. -/
theorem Ledger.serves {s t : Service m n} (h : Ledger s es c done) (hw : Wired s)
    (hs : Serves s t i a out name connection)
    (hclient : t.session.clients c = s.session.clients c) (hmade : t.made c = s.made c)
    (he : served c e = if name.1 = c then (appends (s.cluster.nodes i) a).toList else []) :
    Ledger t (es ++ e) c done := by
  obtain ⟨c',k⟩ := name
  by_cases hc : c' = c
  · subst hc
    rw [if_pos rfl] at he
    by_cases hasking : k = s.made c' ∧ asking (s.session.clients c').phase = true
    · obtain ⟨rfl,hasking⟩ := hasking
      exact h.serves_asking hw hs hclient hmade hasking he
    · refine h.serves_other hw hs hclient hmade ?_ he
      intro hk
      simpa [hk] using hasking
  · rw [if_neg hc] at he
    exact h.agree hclient hmade (fun k' => hs.agree (by simp [Ne.symm hc])) he

/-- `t` is `s` after a step of client `c` other than `connect`. -/
structure Stepped (s t : Service m n) (c : Fin m) (client : Client.State) (connection : Connection) :
    Prop where
  mover : t.session.clients c = client
  made : t.made = s.made
  cluster : t.cluster = s.cluster
  seats : t.clientConnection = s.clientConnection
  connections : t.connections = Function.update s.connections (lastConnection s c) connection

theorem Stepped.idle (h : Stepped s t c client connection) (hi : Idle s name) : Idle t name := by
  intro i hname
  rw [h.cluster]
  exact hi i (h.seats ▸ hname)

/-- A client that asks for nothing, before and after, settles nothing new. -/
theorem Ledger.settle {s t : Service m n} (h : Ledger s es c done)
    (hm : Stepped s t c client connection)
    (hphase : asking (s.session.clients c).phase = false) (hphase' : asking client.phase = false)
    (hconn : ∀ v, .replicate v ∈ connection.toServer →
      .replicate v ∈ (s.connections (lastConnection s c)).toServer)
    (hdone : (done' ++ if answered client.phase then [String.ofList client.line] else []) =
      done ++ if answered (s.session.clients c).phase then [command s c] else [])
    (he : served c e = []) : Ledger t (es ++ e) c done' := by
  have hnew : asking (t.session.clients c).phase = false := by rwa [hm.mover]
  refine ⟨?_,?_,?_,?_⟩
  · intro hs
    rw [hs] at hnew
    contradiction
  · intro hs
    rw [hs] at hnew
    contradiction
  · intro _
    have hL := (h.settled hphase).extend (e := e) (fun _ => he)
    rwa [← hdone, ← hm.mover] at hL
  · intro hg k hk _
    rw [hm.made] at hk
    have hspent := h.spent (fun hm => hg (List.mem_append_left _ hm)) k hk (fun _ => hphase)
    refine ⟨hm.idle hspent.idle,?_⟩
    intro v hv
    rw [hm.connections] at hv
    by_cases hname : (c,k) = lastConnection s c
    · rw [hname, Function.update_self] at hv
      exact hspent.quiet v (hname ▸ hconn v hv)
    · rw [Function.update_of_ne hname] at hv
      exact hspent.quiet v hv

/-- The client takes the answer: its command is replicated, and the connection over. -/
theorem Ledger.receive {s t : Service m n} (h : Ledger s es c done)
    (hm : Stepped s t c { s.session.clients c with phase := .hangingUp (code == .success) } connection)
    (hphase : (s.session.clients c).phase = .awaiting)
    (hn : clientSide (command s c) (s.connections (lastConnection s c)) (.receive code) =
      some connection) : Ledger t es c done := by
  have hnew := congrArg Client.State.phase hm.mover
  obtain ⟨written,hcourse,hL⟩ := h.awaiting hphase
  cases hcourse with
  | asked hc hi | attended i hname hc ha | refused hc hi => simp [clientSide, hc] at hn
  | answered hc hi =>
    simp only [clientSide, hc, Option.ite_none_right_eq_some, Option.some.injEq] at hn
    obtain ⟨rfl,rfl⟩ := hn
    simp only [beq_self_eq_true] at hnew
    refine ⟨by simp [hnew],by simp [hnew],?_,?_⟩
    · intro _
      have hcommand : command t c = command s c := by simp [command, hm.mover]
      rw [hcommand, hnew]
      exact hL
    · intro hg k hk _
      rw [hm.made] at hk
      by_cases hlast : k = s.made c
      · subst hlast
        exact ⟨hm.idle hi,by simp [hm.connections, lastConnection]⟩
      · have hspent := h.spent hg k hk (fun he => absurd he hlast)
        refine ⟨hm.idle hspent.idle,?_⟩
        rw [hm.connections, Function.update_of_ne (by simp [lastConnection, hlast])]
        exact hspent.quiet

theorem Ledger.giveUp {s t : Service m n} (h : Ledger s es c done)
    (hm : Stepped s t c { s.session.clients c with phase := .hangingUp false } connection)
    (hphase : (s.session.clients c).phase = .awaiting) (hg : .gaveUp c ∈ e) :
    Ledger t (es ++ e) c done := by
  have hnew := congrArg Client.State.phase hm.mover
  obtain ⟨written,-,hL⟩ := h.awaiting hphase
  refine ⟨by simp [hnew],by simp [hnew],?_,?_⟩
  · intro _
    simpa [hnew, answered] using hL.giveUp hg
  · exact fun hno => absurd (List.mem_append_right _ hg) hno

theorem Ledger.send {s t : Service m n} (h : Ledger s es c done)
    (hm : Stepped s t c { s.session.clients c with phase := .awaiting } connection)
    (hphase : (s.session.clients c).phase = .sending)
    (hn : clientSide (command s c) (s.connections (lastConnection s c)) .send = some connection) :
    Ledger t es c done := by
  have hnew := congrArg Client.State.phase hm.mover
  obtain ⟨hempty,hi,hL⟩ := h.sending hphase
  have hlast : lastConnection t c = lastConnection s c := by simp [lastConnection, hm.made]
  have hcommand : command t c = command s c := by simp [command, hm.mover]
  refine ⟨by simp [hnew],?_,by simp [hnew, asking],?_⟩
  · intro _
    rw [hlast, hcommand]
    refine ⟨false,.asked ?_ (hm.idle hi),by simpa using hL⟩
    rw [hm.connections, Function.update_self]
    simpa [clientSide, hempty] using hn.symm
  · intro hg k hk hdone
    rw [hm.made] at hk hdone
    have hne : k ≠ s.made c := by simpa [hnew, asking] using hdone
    have hspent := h.spent hg k hk (fun he => absurd he hne)
    refine ⟨hm.idle hspent.idle,?_⟩
    rw [hm.connections, Function.update_of_ne (by simp [lastConnection, hne])]
    exact hspent.quiet

/-- A client still waits, or is let in, after a poll. -/
theorem polled_phase {client : Client.State} (clientId : Nat) (turnFile : List Client.TurnLine)
    (hphase : client.phase = .waiting) :
    asking (Client.poll clientId turnFile client).1.phase = false ∧
      answered (Client.poll clientId turnFile client).1.phase = false := by
  unfold Client.poll
  split
  · simp [hphase, asking, answered]
  · rename_i line _
    cases Client.isUp clientId line <;> simp [asking, answered]

theorem Ledger.acts {s t : Service m n} (h : Ledger s es c done)
    (hm : Stepped s t c client connection)
    (hact : Client.act c.val m s.session.turnFile (s.session.clients c) a = some (client,ls,es'))
    (hn : clientSide (command s c) (s.connections (lastConnection s c)) a = some connection)
    (hok : a ≠ .giveUp .success) :
    Ledger t (es ++ (es'.map (.client c) ++ gaveUp c a)) c (done ++ ls.map (fun _ => command s c)) := by
  have he : served (n := n) c (es'.map (.client c) ++ gaveUp c a) = [] := by
    simp [servedAt_append]
  unfold Client.act at hact
  split at hact <;> simp only [Option.some.injEq, Prod.mk.injEq, reduceCtorEq] at hact
  all_goals
    rename_i hphase
    obtain ⟨rfl,rfl,rfl⟩ := hact
  case h_4 => contradiction
  case h_5 => simpa [gaveUp] using h.send hm hphase hn
  case h_6 => simpa [gaveUp] using h.receive hm hphase hn
  case h_7 code =>
    have hcode : (code == ClientCode.success) = false := by
      simpa using hok
    rw [hcode] at hm
    simpa using h.giveUp hm hphase (by simp [gaveUp])
  case h_8 replicated =>
    rw [← Option.some.inj hn] at hm
    refine h.settle hm (by rw [hphase]; rfl) ?_ ?_ ?_ he
    · cases replicated <;> rfl
    · intro v hv
      simpa using hv
    · cases replicated <;> simp [hphase, answered, command]
  case h_1 =>
    rw [← Option.some.inj hn] at hm
    refine h.settle hm (by rw [hphase]; rfl) ?_ (fun _ hv => hv) ?_ he <;>
      cases hempty : (Client.getline (s.session.clients c).line
        (s.session.clients c).commandIfs).1.isEmpty <;>
      simp [Client.readCommand, asking, answered, hphase, hempty]
  case h_2 =>
    rw [← Option.some.inj hn] at hm
    obtain ⟨hasking,hanswered⟩ := polled_phase c.val s.session.turnFile hphase
    exact h.settle hm (by rw [hphase]; rfl) hasking (fun _ hv => hv)
      (by rw [hanswered, hphase]; simp [answered]) he
  all_goals
    rw [← Option.some.inj hn] at hm
    refine h.settle hm (by rw [hphase]; rfl) rfl (fun _ hv => hv) ?_ he
    simp [hphase, answered]

/-- `t` is `s` after client `c` has connected to server `i`. -/
structure Connected (s t : Service m n) (c : Fin m) (i : Fin n) : Prop where
  mover : t.session.clients c = { s.session.clients c with phase := .sending }
  others : ∀ c', c' ≠ c → t.session.clients c' = s.session.clients c'
  made : t.made = Function.update s.made c (s.made c + 1)
  cluster : ∀ j, j ≠ i → t.cluster.nodes j = s.cluster.nodes j
  serverBefore : serving (s.cluster.nodes i).client = false
  server : serving (t.cluster.nodes i).client = false
  seats : t.clientConnection = Function.update s.clientConnection i (some (c,s.made c + 1))
  connections : t.connections = Function.update s.connections (c,s.made c + 1) {}

theorem connect_serving {node : Server.Node n} (h : Server.act rank node .connect = some out) :
    serving node.client = false ∧ serving out.state.client = false ∧ out.events = [] := by
  cases serverActs_of_act h with
  | connects hc => exact ⟨by rw [hc]; rfl,rfl,rfl⟩

theorem Steps.connected {s t : Service m n} (h : Steps elected s (.connect c i) t e) :
    (s.session.clients c).phase = .connecting ∧ Connected s t c i ∧ e = [] := by
  cases h with
  | connect _ _ out hphase ho =>
    obtain ⟨hbefore,hafter,-⟩ := connect_serving ho
    refine ⟨hphase,⟨?_,?_,rfl,?_,hbefore,?_,rfl,rfl⟩,rfl⟩
    · exact Function.update_self _ _ _
    · exact fun c' hc' => Function.update_of_ne hc' _ _
    · exact fun j hj => LaneNet.commit_other _ _ _ hj
    · rwa [LaneNet.commit_self]

theorem Connected.agree (h : Connected s t c i) (hne : name ≠ (c,s.made c + 1)) :
    Agree s t name := by
  refine ⟨by rw [h.connections, Function.update_of_ne hne],?_,?_⟩
  · intro hi j hj
    by_cases hji : j = i
    · exact hji ▸ h.server
    · rw [h.seats, Function.update_of_ne hji] at hj
      rw [h.cluster j hji]
      exact hi j hj
  · intro j v written hj hattends
    have hji : j ≠ i := by
      rintro rfl
      have hserving := hattends.serving
      rw [h.serverBefore] at hserving
      contradiction
    rw [h.seats, Function.update_of_ne hji, h.cluster j hji]
    exact ⟨hj,hattends⟩

theorem Connected.wired (h : Connected s t c i) (hw : Wired s) : Wired t := by
  have hseat : ∀ j name, t.clientConnection j = some name →
      (j = i ∧ name = (c,s.made c + 1)) ∨ (j ≠ i ∧ s.clientConnection j = some name) := by
    intro j name hj
    rw [h.seats] at hj
    by_cases hji : j = i
    · subst hji
      rw [Function.update_self, Option.some.injEq] at hj
      exact .inl ⟨rfl,hj.symm⟩
    · rw [Function.update_of_ne hji] at hj
      exact .inr ⟨hji,hj⟩
  have hfresh : ∀ j, s.clientConnection j ≠ some (c,s.made c + 1) := by
    intro j hj
    have hle := hw.known j c _ hj
    omega
  refine ⟨?_,?_⟩
  · intro j k name hj hk
    rcases hseat j name hj with ⟨rfl,rfl⟩ | ⟨-,hj'⟩
    · rcases hseat k _ hk with ⟨rfl,-⟩ | ⟨-,hk'⟩
      · rfl
      · exact absurd hk' (hfresh k)
    · rcases hseat k name hk with ⟨rfl,rfl⟩ | ⟨-,hk'⟩
      · exact absurd hj' (hfresh j)
      · exact hw.apart j k name hj' hk'
  · intro j c' k hj
    rw [h.made]
    rcases hseat j _ hj with ⟨-,hname⟩ | ⟨-,hj'⟩
    · obtain ⟨rfl,rfl⟩ := Prod.mk.inj hname
      rw [Function.update_self]
    · have hle := hw.known j c' k hj'
      by_cases hc : c' = c
      · subst hc
        rw [Function.update_self]
        omega
      · rwa [Function.update_of_ne hc]

/-- A new connection owes nothing yet, and what the client had before is abandoned. -/
theorem Ledger.connect {s t : Service m n} (h : Ledger s es c done) (hw : Wired s)
    (hc : Connected s t c i) (hphase : (s.session.clients c).phase = .connecting) :
    Ledger t es c done := by
  have hnew := congrArg Client.State.phase hc.mover
  have hmade : t.made c = s.made c + 1 := by rw [hc.made, Function.update_self]
  refine ⟨?_,by simp [hnew],by simp [hnew, asking],?_⟩
  · intro _
    rw [lastConnection, hmade]
    refine ⟨by rw [hc.connections, Function.update_self],?_,?_⟩
    · intro j hj
      by_cases hji : j = i
      · exact hji ▸ hc.server
      · rw [hc.seats, Function.update_of_ne hji] at hj
        have hle := hw.known j c _ hj
        omega
    · simpa [hphase, answered] using h.settled (by rw [hphase]; rfl)
  · intro hg k hk hdone
    rw [hmade] at hk hdone
    have hne : k ≠ s.made c + 1 := by simpa [hnew, asking] using hdone
    have hspent := h.spent hg k (by omega) (fun _ => by rw [hphase]; rfl)
    exact hspent.agree (hc.agree (by simp [hne]))

/-- What a client has replicated when it has passed the turn on `k` times. -/
def replicated (file : List Char) (k : Nat) : List String :=
  (List.range k).map (fun j => String.ofList (readings file (j + 1)).1)

/-- A client that has passed the turn on has replicated the line it had. -/
theorem Progress.replicated {client client' : Client.State} (h : Progress file k client)
    (hact : Client.act i m turnFile client a = some (client',ls,es)) :
    replicated file (k + ls.length) =
      replicated file k ++ ls.map (fun _ => String.ofList client.line) := by
  cases acted_of_act hact with
  | setsTurn hphase =>
    have hreads := congrArg Prod.fst h.reads
    simp only [hphase, reduceCtorEq, or_self, ↓reduceIte] at hreads
    simp [Proofs.replicated, List.range_succ, hreads]
  | _ => simp

/-- Nobody issues a shutdown, and no response that never came reads as SUCCESS. -/
def candid : Service.Move m n → Bool
  | .shutdown => false
  | .client _ (.giveUp code) => code != .success
  | _ => true

theorem agree_of_same {s t : Service m n} (hseats : t.clientConnection = s.clientConnection)
    (hsame : t.connections name = s.connections name)
    (hnodes : ∀ i, s.clientConnection i = some name →
      (t.cluster.nodes i).client = (s.cluster.nodes i).client ∧
      (t.cluster.nodes i).consensus.thread = (s.cluster.nodes i).consensus.thread) :
    Agree s t name := by
  refine ⟨hsame,?_,?_⟩
  · intro hi j hj
    rw [hseats] at hj
    rw [(hnodes j hj).1]
    exact hi j hj
  · intro j v written hj hattends
    obtain ⟨hc,ht⟩ := hnodes j hj
    exact ⟨hseats ▸ hj,hattends.congr hc ht⟩

/-- How far a client is, and what the servers have done for it. -/
def Balanced (file : List Char) (s : Service m n) (es : Service.History m n) (c : Fin m) : Prop :=
  ∃ k, Progress file k (s.session.clients c) ∧ Ledger s es c (replicated file k)

theorem Balanced.agree {s t : Service m n} (h : Balanced file s es c)
    (hclient : t.session.clients c = s.session.clients c) (hmade : t.made c = s.made c)
    (ha : ∀ k, Agree s t (c,k)) (he : served c e = []) : Balanced file t (es ++ e) c := by
  obtain ⟨k,hp,hl⟩ := h
  exact ⟨k,hclient ▸ hp,hl.agree hclient hmade ha he⟩

theorem connect_balanced {s t : Service m n} {files : Fin m → List Char}
    (hb : ∀ c, Balanced (files c) s es c) (hw : Wired s)
    (hs : Steps elected s (.connect c i) t e) :
    Wired t ∧ ∀ c, Balanced (files c) t (es ++ e) c := by
  obtain ⟨hphase,hc,rfl⟩ := hs.connected
  refine ⟨hc.wired hw,?_⟩
  intro c'
  by_cases hcc : c' = c
  · subst hcc
    obtain ⟨k,hp,hl⟩ := hb c'
    have hact : Client.act 0 0 [] (s.session.clients c') .connect =
        some (t.session.clients c',[],[]) := by simp [Client.act, hphase, hc.mover]
    rw [List.append_nil]
    exact ⟨k,hp.step hact,hl.connect hw hc hphase⟩
  · refine (hb c').agree (hc.others c' hcc) ?_ ?_ rfl
    · rw [hc.made, Function.update_of_ne hcc]
    · exact fun k => hc.agree (by simp [hcc])

theorem client_balanced {s t : Service m n} {files : Fin m → List Char}
    (hb : ∀ c, Balanced (files c) s es c) (hok : a ≠ .giveUp .success)
    (hs : Steps elected s (.client c a) t e) (c' : Fin m) :
    Balanced (files c') t (es ++ e) c' := by
  cases hs with
  | @client ls es' _ _ client connection hc hn =>
    by_cases hcc : c' = c
    · subst hcc
      obtain ⟨k,hp,hl⟩ := hb c'
      refine ⟨k + ls.length,?_,?_⟩
      · simpa using hp.step hc
      · rw [hp.replicated hc]
        exact hl.acts ⟨by simp,rfl,rfl,rfl,rfl⟩ hc hn hok
    · refine (hb c').agree (by simp [hcc]) rfl ?_ ?_
      · intro k
        exact agree_of_same rfl (by simp [hcc]) (fun _ _ => ⟨rfl,rfl⟩)
      · simp [servedAt_append]

theorem server_balanced {s t : Service m n} {files : Fin m → List Char}
    (hb : ∀ c, Balanced (files c) s es c) (hw : Wired s)
    (hs : Steps elected s (.server l) t e) (c : Fin m) : Balanced (files c) t (es ++ e) c := by
  cases hs with
  | served i a out name connection ho hname hn =>
    obtain ⟨k,hp,hl⟩ := hb c
    refine ⟨k,hp,hl.serves hw ⟨attendance_of_act ho,hn,hname,rfl,?_,?_,rfl⟩ rfl rfl ?_⟩
    · exact LaneNet.commit_self _ _ _ _
    · exact fun j hj => LaneNet.commit_other _ _ _ hj
    · simp [servedAt_append]
  | alone i a out ho hname hu =>
    refine (hb c).agree rfl rfl ?_ (by simp)
    intro k
    refine agree_of_same rfl rfl ?_
    intro j hj
    have hji : j ≠ i := by
      rintro rfl
      rw [hname] at hj
      contradiction
    simp [LaneNet.commit_other _ _ _ hji]
  | receive k src dst message rest node hx =>
    obtain ⟨-,hclient,hcons⟩ := accept_frame hx
    refine (hb c).agree rfl rfl ?_ rfl
    intro k'
    refine agree_of_same rfl rfl ?_
    intro j _
    by_cases hj : j = dst
    · subst hj
      simp [hclient, hcons]
    · simp [LaneNet.take_other _ _ _ _ _ hj]

theorem steps_balanced {s t : Service m n} {files : Fin m → List Char}
    (hb : ∀ c, Balanced (files c) s es c) (hw : Wired s) (hok : candid l = true)
    (hs : Steps elected s l t e) : Wired t ∧ ∀ c, Balanced (files c) t (es ++ e) c := by
  cases l with
  | connect c i => exact connect_balanced hb hw hs
  | client c a =>
    refine ⟨?_,client_balanced hb (by rintro rfl; contradiction) hs⟩
    cases hs
    exact ⟨hw.apart,hw.known⟩
  | server l =>
    refine ⟨?_,server_balanced hb hw hs⟩
    cases hs <;> exact ⟨hw.apart,hw.known⟩
  | shutdown => contradiction

theorem reach_balanced {files : Fin m → List Char} {elected : Option (Fin n)}
    (hr : (service elected files).Reach (fun _ _ l => candid l = true) s es) :
    Wired s ∧ ∀ c, Balanced (files c) s es c := by
  induction hr with
  | start =>
    refine ⟨⟨fun i j name hi => by contradiction,fun i c k hi => by contradiction⟩,?_⟩
    intro c
    have hphase : ((service elected files).start.session.clients c).phase = .reading := rfl
    refine ⟨0,⟨by simp,?_,fun h => absurd hphase h⟩,?_⟩
    · rw [hphase]
      rfl
    · refine ⟨by simp [hphase],by simp [hphase],?_,?_⟩
      · exact fun _ => ⟨List.Sublist.refl _,fun _ => rfl⟩
      · exact fun _ k _ _ => ⟨fun i _ => rfl,fun v hv => by contradiction⟩
  | step hr hok hs ih => exact steps_balanced ih.2 ih.1 hok (steps_of_step hs)

/-! The log of a server. -/

/-- The log of server `i` after a step of server `j`. -/
theorem commit_kept {s : Server.Cluster n} (lane : Server.Message n → MessageTag)
    (hkept : List.Sublist L (s.nodes i).log) (ho : Server.act j (s.nodes j) a = some out)
    (hno : j = i → ∀ src before after, .replaced src before after ∉ out.events) :
    (L ++ if j = i then (appends (s.nodes j) a).toList else []).Sublist
      ((s.commit lane j out).nodes i).log := by
  by_cases hji : j = i
  · subst hji
    rw [LaneNet.commit_self, if_pos rfl]
    rcases act_appends ho with ⟨src,before,after,hm⟩ | hlog
    · exact absurd hm (hno rfl src before after)
    · exact (hkept.append (List.Sublist.refl _)).trans hlog
  · rw [LaneNet.commit_other _ _ _ (Ne.symm hji), if_neg hji, List.append_nil]
    exact hkept

theorem steps_kept {s t : Service m n} (hs : Steps elected s l t e)
    (hkept : List.Sublist L (s.cluster.nodes i).log)
    (hno : ∀ src before after, .server i (.replaced src before after) ∉ e) (c : Fin m) :
    (L ++ servedBy i c e).Sublist (t.cluster.nodes i).log := by
  cases hs with
  | connect c' j out hphase ho =>
    obtain ⟨-,-,hnone⟩ := connect_serving ho
    simpa [appends] using
      commit_kept (Server.process elected).lane hkept ho (by simp [hnone])
  | client c' a client connection hc hn => simpa [servedAt_append] using hkept
  | served j a out name connection ho hname hn =>
    have hlog := commit_kept (Server.process elected).lane hkept ho (by
      rintro rfl src before after hm
      exact hno src before after (by simp [hm]))
    refine (List.Sublist.append (List.Sublist.refl _) ?_).trans hlog
    simp only [servedAt_append, served_server, List.nil_append, served_appended, beq_iff_eq]
    by_cases hji : j = i
    · rw [if_pos hji]
      split
      · exact List.Sublist.refl _
      · exact List.nil_sublist _
    · simp [hji]
  | alone j a out ho hname hu =>
    have hlog := commit_kept (Server.process elected).lane hkept ho (by
      rintro rfl src before after hm
      exact hno src before after (by simp [hm]))
    refine (List.Sublist.append (List.Sublist.refl _) ?_).trans hlog
    simp
  | receive k src dst message rest node hx =>
    obtain ⟨-,-,hcons⟩ := accept_frame hx
    by_cases hid : i = dst
    · subst hid
      simpa [Server.Node.log, hcons] using hkept
    · simpa [LaneNet.take_other _ _ _ _ _ hid] using hkept
  | shutdown => simpa using hkept

/-- A server keeps what it has appended as long as its log is not replaced. -/
theorem reach_kept {files : Fin m → List Char} {elected : Option (Fin n)} {i : Fin n}
    (hr : (service elected files).Reach ok s es)
    (hno : ∀ src before after, .server i (.replaced src before after) ∉ es) (c : Fin m) :
    (servedBy i c es).Sublist (s.cluster.nodes i).log := by
  induction hr with
  | start => exact List.nil_sublist _
  | step hr hok hs ih =>
    rw [servedBy, servedAt_append]
    refine steps_kept (steps_of_step hs) (ih ?_) ?_ c
    · exact fun src before after hm => hno src before after (List.mem_append_left _ hm)
    · exact fun src before after hm => hno src before after (List.mem_append_right _ hm)

/-! The command file. -/

theorem readings_tail {file : List Char} (h : '\n' ∈ file) (j : Nat) :
    readings file (j + 2) = readings (file.dropWhile (· != '\n')).tail (j + 1) := by
  induction j with
  | zero => simp [readings, Client.getline, h]
  | succ j ih =>
    rw [readings, ih]
    rfl

theorem readings_rest {file : List Char} (h : '\n' ∉ file) (j : Nat) :
    (readings file (j + 1)).1 = file ∧ (readings file (j + 1)).2.good = false := by
  induction j with
  | zero =>
    refine ⟨?_,by simp [readings, Client.getline, h]⟩
    apply List.takeWhile_eq_self_iff.mpr
    intro x hx
    simpa using fun he : x = '\n' => h (he ▸ hx)
  | succ j ih =>
    rw [readings]
    simp [Client.getline, ih]

/-- A file with a line end is its first line, the line end, and the rest. -/
theorem first_line {file : List Char} (h : '\n' ∈ file) :
    file = file.takeWhile (· != '\n') ++ '\n' :: (file.dropWhile (· != '\n')).tail := by
  have hsplit := List.takeWhile_append_dropWhile (p := (· != '\n')) (l := file)
  cases hrest : file.dropWhile (· != '\n') with
  | nil =>
    rw [List.dropWhile_eq_nil_iff] at hrest
    simpa using hrest '\n' h
  | cons x rest =>
    have hx := List.head_dropWhile_not (· != '\n') (l := file) (by simp [hrest])
    simp only [hrest, List.head_cons, bne_eq_false_iff_eq] at hx
    rw [hrest, hx] at hsplit
    exact hsplit.symm

theorem commands_cons {file : List Char} (h : '\n' ∈ file) :
    commands file = if (file.takeWhile (· != '\n')).isEmpty then []
      else String.ofList (file.takeWhile (· != '\n')) ::
        commands (file.dropWhile (· != '\n')).tail := by
  have hline : '\n' ∉ file.takeWhile (· != '\n') := by
    intro hm
    simpa using List.mem_takeWhile_imp hm
  have hlines : file.splitOn '\n' = file.takeWhile (· != '\n') ::
      (file.dropWhile (· != '\n')).tail.splitOn '\n' := by
    conv => lhs; rw [first_line h]
    exact List.splitOn_append_cons_self_of_not_mem hline _
  rw [commands, hlines, List.takeWhile_cons]
  cases (file.takeWhile (· != '\n')).isEmpty <;> simp [commands]

/-- A client that finds an empty line has replicated all commands of its file. -/
theorem replicated_commands {file : List Char}
    (hdone : ∀ j < k, (readings file (j + 1)).1 ≠ []) (hlast : (readings file (k + 1)).1 = []) :
    replicated file k = commands file := by
  induction k generalizing file with
  | zero =>
    by_cases hend : '\n' ∈ file
    · have hempty : file.takeWhile (· != '\n') = [] := by simpa [readings, Client.getline] using hlast
      rw [commands_cons hend, hempty]
      rfl
    · rw [(readings_rest hend 0).1] at hlast
      subst hlast
      rfl
  | succ k ih =>
    have hfirst := hdone 0 (by omega)
    by_cases hend : '\n' ∈ file
    · have hne : file.takeWhile (· != '\n') ≠ [] := by simpa [readings, Client.getline] using hfirst
      have hrest := @ih (file.dropWhile (· != '\n')).tail
        (fun j hj => by rw [← readings_tail hend]; exact hdone (j + 1) (by omega))
        (by rw [← readings_tail hend]; exact hlast)
      rw [commands_cons hend, if_neg (by simpa using hne), ← hrest, replicated,
        List.range_succ_eq_map, List.map_cons, List.map_map]
      refine List.cons_eq_cons.mpr ⟨rfl,List.map_congr_left ?_⟩
      intro j _
      exact congrArg (fun r => String.ofList r.1) (readings_tail hend j)
    · rw [(readings_rest hend 0).1] at hfirst
      exact absurd ((readings_rest hend _).1.symm.trans hlast) hfirst

/-- When a client returns, servers have appended the commands of its file in order, each
at least once, and exactly once if it never gave up waiting. A server whose log has not
been replaced still has what it appended. -/
theorem commands_replicated (elected : Option (Fin n)) (files : Fin m → List Char)
    (s : Service m n) (es : Service.History m n)
    (hr : (service elected files).Reach (fun _ _ l => candid l = true) s es) (c : Fin m) :
    ((s.session.clients c).phase = .returned →
      (commands (files c)).Sublist (served c es) ∧
      (.gaveUp c ∉ es → served c es = commands (files c))) ∧
    ∀ i, (∀ src before after, .server i (.replaced src before after) ∉ es) →
      (servedBy i c es).Sublist (s.cluster.nodes i).log := by
  refine ⟨?_,fun i hno => reach_kept hr hno c⟩
  intro hphase
  obtain ⟨k,hp,hl⟩ := (reach_balanced hr).2 c
  have hline : (s.session.clients c).line = [] :=
    (hp.has (by simp [hphase]) (by simp [hphase])).mp hphase
  have hreads := congrArg Prod.fst hp.reads
  simp only [hphase, reduceCtorEq, or_self, ↓reduceIte] at hreads
  have hcommands := replicated_commands hp.done (hreads.symm.trans hline)
  have htally := hl.settled (by rw [hphase]; rfl)
  simp only [hphase, answered, Bool.false_eq_true, ↓reduceIte, List.append_nil, hcommands]
    at htally
  exact ⟨htally.sublist,htally.exact⟩

/-- The client sends a command, and the server goes `k` sections into `startConsensus`. -/
def commandRun (c : Fin m) (i : Fin n) (value : String) (k now : Nat) : List (Service.Move m n) :=
  Service.Move.asks c i ++ Service.Move.runs i value k now

/-- The client is answered, passes the turn on, and reads its next command. -/
def answeredRun (c : Fin m) (i : Fin n) : List (Service.Move m n) :=
  Service.Move.servers i [.reply] ++
  Service.Move.clients c [.receive .success,.disconnect,.setTurn,.wake,.readCommand]

def admittedRun (c : Fin m) : List (Service.Move m n) :=
  Service.Move.clients c [.readCommand,.poll,.returnFromWait]

/-- The client gives up after the server has appended its command, and sends it again. -/
def resent (c : Fin m) (i : Fin n) (value : String) : List (Service.Move m n) :=
  admittedRun c ++ commandRun c i value 7 10 ++
  Service.Move.clients c [.giveUp .disconnect,.disconnect] ++
  Service.Move.servers i [.proceed 60,.proceed 60,.proceed 60,.reply,.disconnect] ++
  commandRun c i value 10 60 ++ answeredRun c i

/-- `c` has its command replicated by `i` at the first try. -/
def replicatedOnce (c : Fin m) (i : Fin n) (value : String) : List (Service.Move m n) :=
  admittedRun c ++ commandRun c i value 10 10 ++ answeredRun c i

/-- The command of `c` is replicated by `i`, which `j` then replaces as the leader
before it has heard of the command. -/
def replacedAfter (c : Fin m) (i j : Fin n) (value : String) : List (Service.Move m n) :=
  replicatedOnce c i value ++
  (Server.Move.marksDead j i 0 ++ Server.Move.sections j (.spawned 1) 5 20).map .server

/-- The end of the one client, and the leader and the log of server `i`. -/
def clientEnd (i : Fin n) (r : Service 1 n × Service.History 1 n) :
    Client.Phase × Option (Fin n) × List String :=
  ((r.1.session.clients 0).phase,(r.1.cluster.nodes i).leaderNodeId,(r.1.cluster.nodes i).log)

def oneCommand : Fin 1 → List Char := fun _ => ['v','\n']

def twoCommands : Fin 1 → List Char := fun _ => ['u','\n','v','\n']

/-- The server lets `c` go, which is admitted again and has its next command replicated. -/
def replicatedNext (c : Fin m) (i : Fin n) (value : String) (now : Nat) :
    List (Service.Move m n) :=
  Service.Move.servers i [.disconnect] ++ Service.Move.clients c [.poll,.returnFromWait] ++
  commandRun c i value 10 now ++ answeredRun c i

/-- A log has been replaced. -/
def isReplaced : Service.Event m n → Bool
  | .server _ (.replaced _ _ _) => true
  | _ => false

theorem resentNext_end : Service.outcome (n := 2) (some 0) twoCommands
    (fun _ _ l => candid l) (resent 0 0 "u" ++ replicatedNext 0 0 "v" 90) (fun r =>
      ((r.1.session.clients 0).phase,served 0 r.2,r.2.all (!isReplaced ·),
        r.2.contains (.gaveUp 0))) =
      some (.returned,["u","u","v"],true,true) := by
  decide

theorem replicatedNext_end : Service.outcome (n := 2) (some 0) twoCommands
    (fun _ _ l => candid l) (replicatedOnce 0 0 "u" ++ replicatedNext 0 0 "v" 90) (fun r =>
      ((r.1.session.clients 0).phase,r.2.contains (.gaveUp 0))) =
      some (.returned,false) := by
  decide

theorem commands_replicated_resentNext :
    (∃ (s : Service 1 2) (es : Service.History 1 2),
      (service (some 0) twoCommands).Reach (fun _ _ l => candid l = true) s es ∧
      .gaveUp 0 ∈ es ∧ served 0 es = ["u","u","v"] ∧
      (commands (twoCommands 0)).Sublist (served 0 es) ∧
      (servedBy 0 0 es).Sublist (s.cluster.nodes 0).log) ∧
    ∃ (s : Service 1 2) (es : Service.History 1 2),
      (service (some 0) twoCommands).Reach (fun _ _ l => candid l = true) s es ∧
      served 0 es = commands (twoCommands 0) := by
  refine ⟨?_,?_⟩
  · obtain ⟨s,es,hr,h⟩ := Machine.exists_reach (fun _ _ _ h => h) resentNext_end
    simp only [Prod.mk.injEq] at h
    obtain ⟨hphase,hserved,hkept,hgave⟩ := h
    obtain ⟨hall,hlogged⟩ := commands_replicated (some 0) twoCommands s es hr 0
    refine ⟨s,es,hr,List.contains_iff_mem.mp hgave,hserved,(hall hphase).1,?_⟩
    refine hlogged 0 ?_
    intro src before after hm
    simpa [isReplaced] using List.all_eq_true.mp hkept _ hm
  · obtain ⟨s,es,hr,h⟩ := Machine.exists_reach (fun _ _ _ h => h) replicatedNext_end
    simp only [Prod.mk.injEq] at h
    obtain ⟨hphase,hnone⟩ := h
    obtain ⟨hall,-⟩ := commands_replicated (some 0) twoCommands s es hr 0
    refine ⟨s,es,hr,(hall hphase).2 ?_⟩
    intro hgave
    simp [hgave] at hnone

/-- Every server that names itself leader has the commands of the one client in its log,
each as often as in its file. -/
def LoggedOnce (file : List Char) (s : Service 1 n) : Prop :=
  ∀ i, (s.cluster.nodes i).leaderNodeId = some i → (s.cluster.nodes i).log = commands file

theorem resent_end : Service.outcome (n := 2) (some 0) oneCommand (fun _ _ l => candid l)
    (resent 0 0 "v") (clientEnd 0) = some (.returned,some 0,["v","v"]) := by
  decide

theorem replacedAfter_end : Service.outcome (n := 2) (some 0) oneCommand (fun _ _ l => candid l)
    (replacedAfter 0 0 1 "v") (clientEnd 1) = some (.returned,some 1,[]) := by
  decide

/-- A command is logged twice when it is sent again after a timeout, and not at all by a
leader elected before it has learned of it. -/
theorem commands_not_logged_once :
    (∃ (s : Service 1 2) (es : Service.History 1 2),
      (service (some 0) oneCommand).Reach (fun _ _ l => candid l = true) s es ∧
      (s.session.clients 0).phase = .returned ∧ (s.cluster.nodes 0).leaderNodeId = some 0 ∧
      (s.cluster.nodes 0).log = ["v","v"] ∧ ¬ LoggedOnce (oneCommand 0) s) ∧
    (∃ (s : Service 1 2) (es : Service.History 1 2),
      (service (some 0) oneCommand).Reach (fun _ _ l => candid l = true) s es ∧
      (s.session.clients 0).phase = .returned ∧ (s.cluster.nodes 1).leaderNodeId = some 1 ∧
      (s.cluster.nodes 1).log = [] ∧ ¬ LoggedOnce (oneCommand 0) s) := by
  have hcommands : commands (oneCommand 0) = ["v"] := by decide
  refine ⟨?_,?_⟩
  · obtain ⟨s,es,hr,h⟩ := Machine.exists_reach (fun _ _ _ h => h) resent_end
    simp only [clientEnd, Prod.mk.injEq] at h
    obtain ⟨hphase,hlead,hlog⟩ := h
    refine ⟨s,es,hr,hphase,hlead,hlog,?_⟩
    intro honce
    have hsame := honce 0 hlead
    rw [hlog, hcommands] at hsame
    simp at hsame
  · obtain ⟨s,es,hr,h⟩ := Machine.exists_reach (fun _ _ _ h => h) replacedAfter_end
    simp only [clientEnd, Prod.mk.injEq] at h
    obtain ⟨hphase,hlead,hlog⟩ := h
    refine ⟨s,es,hr,hphase,hlead,hlog,?_⟩
    intro honce
    have hsame := honce 1 hlead
    rw [hlog, hcommands] at hsame
    simp at hsame

end Algorep.Proofs
