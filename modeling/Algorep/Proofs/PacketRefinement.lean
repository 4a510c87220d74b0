import Algorep.Kit.Refinement
import Algorep.Proofs.PacketReading
import Algorep.Proofs.Suspicions

namespace Algorep.Proofs
open Kit Program Program.Server Program.Wire

/-! As long as every text leaves room for its NUL, the servers do with the texts what they do
with the messages. -/

theorem Holds.spawn {node : Server.Node n} (h : Holds D node)
    (hops : ∀ x ∈ ops, mentioned x = []) : Holds D (node.spawn ops) := by
  refine ⟨h.consensus,h.received,?_⟩
  intro t x hx d hd
  by_cases ht : t = .spawned node.spawned
  · subst ht
    rw [Server.Node.spawn, Server.Node.setThread_self] at hx
    rw [hops x hx] at hd
    contradiction
  · rw [Server.Node.spawn, Server.Node.setThread_other _ _ _ ht] at hx
    exact h.sections t x hx d hd

/-- What a call brings in. -/
def called : Heartbeat.Action n → List Datum
  | .server a _ => broughtIn a
  | .pingCheck _ | .handlePing _ => []

theorem Holds.checkTimeStamp {node : Heartbeat.Node n} (h : Holds D node.server) (rank j : Fin n)
    (cur : Int) : Holds D (Heartbeat.checkTimeStamp rank node j cur).server := by
  unfold Heartbeat.checkTimeStamp
  split
  · apply h.spawn
    simp [handleNodeFailure, mentioned]
  · split
    · split
      · apply h.spawn
        simp [handleNodeRecovery, mentioned]
      · exact h
    · exact h

theorem Holds.pingCheck {node : Heartbeat.Node n} (h : Holds D node.server) (rank : Fin n)
    (cur : Int) : Holds D (Heartbeat.pingCheck rank node cur).state.server := by
  unfold Heartbeat.pingCheck
  split
  · exact h
  · exact h.checkTimeStamp rank _ cur
  · exact h

theorem pingCheck_said {node : Heartbeat.Node n}
    (h : (Heartbeat.pingCheck rank node cur).send = some (dst,m)) : said m = [] := by
  unfold Heartbeat.pingCheck at h
  split at h
  · contradiction
  · contradiction
  · cases h
    rfl

/-- A step of a server with its heartbeats keeps to what it has and what it is given. -/
theorem holds_heartbeat {node : Heartbeat.Node n} (h : Holds D node.server)
    (ha : Heartbeat.act rank node call = some out) (hd : D (.number (-1)))
    (hv : ∀ d ∈ called call, D d) :
    Holds D out.state.server ∧ ∀ dst m, out.send = some (dst,m) → ∀ d ∈ said m, D d := by
  cases call with
  | pingCheck cur =>
    simp only [Heartbeat.act, Option.some.injEq] at ha
    subst ha
    refine ⟨h.pingCheck rank cur,?_⟩
    intro dst m hs
    simp [pingCheck_said hs]
  | handlePing now =>
    obtain ⟨src,-,rfl⟩ := Option.map_eq_some_iff.mp ha
    exact ⟨h,by simp⟩
  | server a now =>
    obtain ⟨sout,hs,hx,hsend,-⟩ := serve_cases ha
    obtain ⟨hholds,hsaid⟩ := holds_act h hs hd hv
    refine ⟨hx ▸ hholds,?_⟩
    intro dst m hm
    rw [hsend] at hm
    obtain ⟨p,hp,he⟩ := Option.map_eq_some_iff.mp hm
    cases he
    exact hsaid p.1 p.2 hp

theorem holds_heard {node x : Heartbeat.Node n} (h : Holds D node.server)
    (ha : Heartbeat.accept rank node tag src m = some x) (hv : ∀ d ∈ said m, D d) :
    Holds D x.server := by
  cases m with
  | ping =>
    simp only [Heartbeat.accept, Option.ite_none_right_eq_some, Option.some.injEq] at ha
    obtain ⟨-,rfl⟩ := ha
    exact h
  | server m =>
    simp only [Heartbeat.accept, Option.ite_none_left_eq_some, Option.map_eq_some_iff] at ha
    obtain ⟨-,sx,hs,rfl⟩ := ha
    exact holds_accept h hs hv

/-- The receiver has to be waiting for the message it takes. -/
theorem waiting_of_accept {node x : Heartbeat.Node n}
    (ha : Heartbeat.accept rank node tag src m = some x) : Packets.waiting node tag = true := by
  cases m with
  | ping =>
    simp only [Heartbeat.accept, Option.ite_none_right_eq_some] at ha
    obtain ⟨⟨rfl,hp,ht⟩,-⟩ := ha
    simp [Packets.waiting, hp, ht]
  | server m =>
    simp only [Heartbeat.accept, Option.ite_none_left_eq_some, Option.map_eq_some_iff] at ha
    obtain ⟨hp,sx,hs,-⟩ := ha
    cases tag with
    | repl | client => cases m <;> contradiction
    | consensus =>
      cases m with
      | consensus packet =>
        simp only [accept, Option.ite_none_right_eq_some] at hs
        exact hs.1
      | _ => contradiction
    | leaderElection =>
      simp only [accept, Option.ite_none_right_eq_some] at hs
      exact hs.1
    | failureDetection =>
      simp only [accept, Option.ite_none_right_eq_some] at hs
      have hpinged : node.pinged = none := by simpa using hp
      simp [Packets.waiting, hpinged, hs.1]

/-- A node with its texts, and the node that it stands for. -/
structure StandsFor (x : Packets.Node n) (x' : Heartbeat.Node n) : Prop where
  server : x.server = x'
  up : x.down = false
  holds : Holds Plain x'.server

/-- The call brings in what a text can carry, and the text of its message leaves room for a
NUL in the buffer. -/
def WithinLimits (i : Fin n) (node : Heartbeat.Node n) (call : Heartbeat.Action n)
    (id : Int32) : Prop :=
  (∀ d ∈ called call, Plain d) ∧ ∀ out ∈ Heartbeat.act i node call, ∀ p ∈ out.send,
    wireLength (Packets.wireMessage id p.2) < maxMessageSize

instance (d : Datum) : Decidable (Plain d) :=
  match d with
  | .value value => inferInstanceAs (Decidable ('\n' ∉ value.toList))
  | .number i => inferInstanceAs (Decidable (-2 ^ 31 ≤ i ∧ i < 2 ^ 31))

instance (i : Fin n) (node : Heartbeat.Node n) (call : Heartbeat.Action n) (id : Int32) :
    Decidable (WithinLimits i node call id) := inferInstanceAs (Decidable (_ ∧ _))

section Packets
variable {floats : Json.Floats}

theorem sendsAlike_packets (hn : n ≤ 2 ^ 31) {id : Int32} {p : Option (Fin n × Heartbeat.Message n)}
    (hplain : ∀ dst m, p = some (dst,m) → ∀ d ∈ said m, Plain d)
    (hroom : ∀ dst m, p = some (dst,m) →
      wireLength (Packets.wireMessage id m) < maxMessageSize) (heap stack : Json.Bytes) :
    SendsAlike (Encodes floats) (p.map (fun p => (p.1,Packets.packet id heap stack p.2))) p := by
  cases p with
  | none => exact .none
  | some p =>
    obtain ⟨dst,m⟩ := p
    exact .some dst (packet_encodes floats hn (hplain dst m rfl) (hroom dst m rfl) heap stack)

theorem Encodes.accept_eq {p : Packets.Packet} {m : Heartbeat.Message n} (h : Encodes floats p m)
    {x : Packets.Node n} (hup : x.down = false) (hw : Packets.waiting x.server k = true) :
    Packets.accept floats rank x k src p =
      (Heartbeat.accept rank x.server k src m).map (fun y => { x with server := y }) := by
  obtain ⟨code,id,data,hreceived,hread⟩ := h.received
  simp [Packets.accept, hup, hw, hreceived, hread, Packets.take]

/-- A run of the texts is a run of the messages. -/
theorem packets_refine (hn : n ≤ 2 ^ 31) (floats : Json.Floats) (elected : Option (Fin n)) :
    (Packets.process floats elected).Refines (Heartbeat.process elected) (fun _ => StandsFor)
      (Encodes floats) Packets.Action.call (fun i x a => WithinLimits i x.server a.call a.id) where
  start i := ⟨rfl,rfl,start_holds elected plain_unset i⟩
  lane m m' h := h.tag
  act i x x' a out h hok ho := by
    obtain ⟨rfl,hup,hholds⟩ := h
    simp only [Packets.process, Packets.act, hup, Bool.false_eq_true, ↓reduceIte,
      Option.map_eq_some_iff] at ho
    obtain ⟨o,ho,rfl⟩ := ho
    obtain ⟨hholds',hsaid⟩ := holds_heartbeat hholds ho plain_unset hok.1
    exact ⟨o,ho,⟨rfl,rfl,hholds'⟩,rfl,
      sendsAlike_packets hn hsaid (fun dst m hs => hok.2 o ho (dst,m) hs) a.heap a.stack⟩
  accept i x x' k src p m y h hm ha := by
    obtain ⟨rfl,hup,hholds⟩ := h
    have hw : Packets.waiting x.server k = true := by
      by_contra hw
      simp [Packets.process, Packets.accept, hw] at ha
    replace ha : Packets.accept floats i x k src p = some y := ha
    rw [hm.accept_eq hup hw] at ha
    obtain ⟨z,hz,rfl⟩ := Option.map_eq_some_iff.mp ha
    exact ⟨z,hz,rfl,hup,holds_heard hholds hz hm.plain⟩

/-- A run of the messages is a run of the texts. -/
theorem heartbeats_refine (hn : n ≤ 2 ^ 31) (floats : Json.Floats) (elected : Option (Fin n)) :
    (Heartbeat.process elected).Refines (Packets.process floats elected)
      (fun _ x' x => StandsFor x x') (fun m p => Encodes floats p m) Packets.Action.bare
      (fun i x call => WithinLimits i x call 0) where
  start i := ⟨rfl,rfl,start_holds elected plain_unset i⟩
  lane m p h := h.tag.symm
  act i x' x call o h hok ho := by
    obtain ⟨rfl,hup,hholds⟩ := h
    obtain ⟨hholds',hsaid⟩ := holds_heartbeat hholds ho plain_unset hok.1
    have hact : Packets.act i x (.bare call) = some {
        state := { x with server := o.state }
        send := o.send.map (fun p => (p.1,Packets.packet 0 [] [] p.2))
        events := o.events } := by
      simp [Packets.act, Packets.Action.bare, hup, show Heartbeat.act i x.server call = some o from ho]
    have hsend : SendsAlike (Encodes floats)
        (o.send.map (fun p => (p.1,Packets.packet 0 [] [] p.2))) o.send :=
      sendsAlike_packets hn hsaid (fun dst m hs => hok.2 o ho (dst,m) hs) [] []
    exact ⟨_,hact,⟨rfl,hup,hholds'⟩,rfl,hsend.symm⟩
  accept i x' x k src m p y h hm ha := by
    obtain ⟨rfl,hup,hholds⟩ := h
    have hw := waiting_of_accept ha
    refine ⟨{ x with server := y },?_,rfl,hup,holds_heard hholds ha hm.plain⟩
    have haccept : Packets.accept floats i x k src p = _ := hm.accept_eq hup hw
    exact haccept.trans (Option.map_eq_some_iff.mpr ⟨y,ha,rfl⟩)

/-- In every run whose texts leave room for their NULs, no receiver meets a text that it cannot
read, and the servers do what they would do if the messages travelled as they are. -/
theorem texts_carry_messages (floats : Json.Floats) (elected : Option (Fin n)) (hn : n ≤ 2 ^ 31)
    (hr : (Packets.process floats elected).network.Reach
      (fun _ => LaneProcess.actsWell (fun i x a => WithinLimits i x.server a.call a.id)) s es) :
    (∀ i, (s.nodes i).down = false) ∧ ∃ s', Heartbeat.Reach elected s' es ∧
      (∀ i, (s.nodes i).server = s'.nodes i) ∧
      ∀ tag src dst, List.Forall₂ (Encodes floats) (s.chan tag src dst) (s'.chan tag src dst) := by
  obtain ⟨s',hr',hag⟩ := (packets_refine hn floats elected).reach hr
  exact ⟨fun i => (hag.nodes i).up,s',hr',fun i => (hag.nodes i).server,hag.chan⟩

/-- Node `p` replicates a command that `q` learns of. -/
def learnedByText (p q : Fin n) (value : String) : List (Packets.Move n) :=
  (Server.Move.request p value 10 ++ Server.Move.proceeds p 10 10 ++
    [LaneLabel.act p Server.Action.reply] ++
    Server.Move.consensus p q 20 ++ Server.Move.consensus p q 20 ++
    Server.Move.consensus p q 20).map Packets.Move.served

/-- Tests `WithinLimits`. -/
def roomLeft (_ : Server.History n) (s : Packets.Cluster n) : Packets.Move n → Bool
  | .act i a => decide (WithinLimits i (s.nodes i).server a.call a.id)
  | .receive _ _ _ => true

theorem learnedByText_end : ((Packets.process noFloats (some (0 : Fin 2))).network.follow roomLeft
    (learnedByText 0 1 "v") (Packets.process noFloats (some 0)).network.start []).map
      (fun r => (r.1.nodes 1).server.server.log) = some ["v"] := by
  decide

theorem roomLeft_actsWell (es : Server.History n) (s : Packets.Cluster n) (l : Packets.Move n)
    (h : roomLeft es s l = true) :
    LaneProcess.actsWell (fun i x a => WithinLimits i x.server a.call a.id) s l := by
  cases l with
  | act i a =>
    simpa only [roomLeft, decide_eq_true_eq, LaneProcess.actsWell] using h
  | receive => trivial

theorem texts_carry_messages_learnedByText : ∃ (s : Packets.Cluster 2) (es : Server.History 2),
    (Packets.process noFloats (some 0)).network.Reach
      (fun _ => LaneProcess.actsWell (fun i x a => WithinLimits i x.server a.call a.id)) s es ∧
    (s.nodes 1).server.server.log = ["v"] ∧ (∀ i, (s.nodes i).down = false) ∧
    ∃ s', Heartbeat.Reach (some 0) s' es ∧ (s'.nodes 1).server.log = ["v"] := by
  obtain ⟨s,es,hr,h⟩ := Machine.exists_reach roomLeft_actsWell learnedByText_end
  obtain ⟨hup,s',hr',hnodes,-⟩ := texts_carry_messages noFloats (some 0) (by decide) hr
  exact ⟨s,es,hr,h,hup,s',hr',hnodes 1 ▸ h⟩

/-- The other way round, nothing the servers do with their messages is lost to the texts. -/
theorem messages_have_texts (floats : Json.Floats) (elected : Option (Fin n)) (hn : n ≤ 2 ^ 31)
    (hr : (Heartbeat.process elected).network.Reach
      (fun _ => LaneProcess.actsWell (fun i x call => WithinLimits i x call 0)) s es) :
    ∃ s', (Packets.process floats elected).network.Reach Machine.free s' es ∧
      (∀ i, (s'.nodes i).server = s.nodes i ∧ (s'.nodes i).down = false) ∧
      ∀ tag src dst, List.Forall₂ (fun m p => Encodes floats p m) (s.chan tag src dst)
        (s'.chan tag src dst) := by
  obtain ⟨s',hr',hag⟩ := (heartbeats_refine hn floats elected).reach hr
  exact ⟨s',hr',fun i => ⟨(hag.nodes i).server,(hag.nodes i).up⟩,hag.chan⟩

/-- The same, without the texts. -/
def learnedByMessage (p q : Fin n) (value : String) : List (Heartbeat.Move n) :=
  (learnedByText p q value).map (fun
    | .act i a => .act i a.call
    | .receive tag src dst => .receive tag src dst)

def roomForTexts (_ : Server.History n) (s : Heartbeat.Cluster n) : Heartbeat.Move n → Bool
  | .act i call => decide (WithinLimits i (s.nodes i) call 0)
  | .receive _ _ _ => true

theorem learnedByMessage_end : ((Heartbeat.process (some (0 : Fin 2))).network.follow roomForTexts
    (learnedByMessage 0 1 "v") (Heartbeat.process (some 0)).network.start []).map
      (fun r => (r.1.nodes 1).server.log) = some ["v"] := by
  decide

theorem roomForTexts_actsWell (es : Server.History n) (s : Heartbeat.Cluster n)
    (l : Heartbeat.Move n) (h : roomForTexts es s l = true) :
    LaneProcess.actsWell (fun i x call => WithinLimits i x call 0) s l := by
  cases l with
  | act i call =>
    simpa only [roomForTexts, decide_eq_true_eq, LaneProcess.actsWell] using h
  | receive => trivial

theorem messages_have_texts_learnedByMessage :
    ∃ (s : Heartbeat.Cluster 2) (es : Server.History 2),
    (Heartbeat.process (some 0)).network.Reach
      (fun _ => LaneProcess.actsWell (fun i x call => WithinLimits i x call 0)) s es ∧
    ∃ s', (Packets.process noFloats (some 0)).network.Reach Machine.free s' es ∧
      (s'.nodes 1).server.server.log = ["v"] := by
  obtain ⟨s,es,hr,h⟩ := Machine.exists_reach roomForTexts_actsWell learnedByMessage_end
  obtain ⟨s',hr',hnodes,-⟩ := messages_have_texts noFloats (some 0) (by decide) hr
  refine ⟨s,es,hr,s',hr',?_⟩
  rwa [(hnodes 1).1]

end Packets

end Algorep.Proofs
