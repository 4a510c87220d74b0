import Algorep.Kit.Potential
import Algorep.Program.PortRing
import Algorep.Proofs.WireSurvival

namespace Algorep.Proofs
open Kit Program Program.Reception Program.PortRing
open Program.Json (Bytes Utf8 Floats Scalar parse dumpUtf8 ascii)
open Program.Shutdown (next)

/-- The PORT messages that are sent fit the buffer. -/
def fitting (ports : Fin n → Utf8) : List (Move n) → Ring n → Move n → Prop
  | _, _, .send i wtime _ => wireLength (portMessage i wtime (ports i)) < Wire.maxMessageSize
  | _, _, _ => True

/-! The ring. -/

theorem next_prevNodeId (i : Fin n) : next (prevNodeId i) = i := by
  apply Fin.ext
  have hi := i.isLt
  simp only [next, prevNodeId]
  split
  · have hone : n - 1 + 1 = n := by omega
    simp only [hone, Nat.mod_self]
    omega
  · have hone : i.val - 1 + 1 = i.val := by omega
    simp only [hone, Nat.mod_eq_of_lt hi]

theorem prevNodeId_next (i : Fin n) : prevNodeId (next i) = i := by
  apply Fin.ext
  have hi := i.isLt
  by_cases hlast : i.val + 1 = n
  · have hzero : (next i).val = 0 := by simp only [next, hlast, Nat.mod_self]
    simp only [prevNodeId, hzero, if_true]
    omega
  · have hsucc : (next i).val = i.val + 1 := Nat.mod_eq_of_lt (by omega)
    have hne : ¬ (next i).val = 0 := by omega
    simp only [prevNodeId, if_neg hne]
    omega

/-! The message. -/

/-- A buffer that node `i` has sent. -/
def IsPort (ports : Fin n → Utf8) (i : Fin n) (p : Packet n) : Prop :=
  p.srcNodeId = i ∧ ∃ wtime heap,
    wireLength (portMessage i wtime (ports i)) < Wire.maxMessageSize ∧
    p.buffer = Wire.sendBuffer (Wire.serializeMessage (portMessage i wtime (ports i))) heap

theorem readPort_dump (floats : Floats) (message : MessageObject) (port : Utf8)
    (h : message.data = some (dumpUtf8 [(portKey,.string port)]).bytes) :
    readPort floats message = some port.bytes := by
  have hfits : ∀ m ∈ [(portKey,Scalar.string port)], Fits m.2 := by
    intro m hm
    rw [List.mem_singleton.mp hm]
    trivial
  have hparse : parse floats (dumpUtf8 [(portKey,.string port)]).bytes =
      some (.object [(portKey.bytes,.string port.bytes)]) := parse_dumpObject floats hfits
  simp only [readPort, h, Option.bind_eq_bind, Option.bind_some, hparse]
  rfl

/-- Who receives a PORT message knows its sender's port. -/
theorem receive_port (floats : Floats) {p : Packet n} (hp : IsPort ports j p) (i : Fin n)
    (stack : Bytes) (message : MessageObject) : ∃ received,
      receiveWithTagBlock floats i .client true message
        [⟨p.srcNodeId,p.buffer,stack,noneDead i⟩] = .returned p.srcNodeId received [] ∧
      readPort floats received = some (ports j).bytes := by
  obtain ⟨rfl,wtime,heap,hfits,hbuffer⟩ := hp
  have hreceive := survives_of_room floats hfits heap stack
  rw [← hbuffer] at hreceive
  refine ⟨{ tag := tagInt .client, code := codeInt .port,
            id := .ofInt (generateUniqueId p.srcNodeId wtime),
            data := some (portMessage p.srcNodeId wtime (ports p.srcNodeId)).data.bytes,
            isValid := true },?_,readPort_dump floats _ _ rfl⟩
  have hkept : shouldDrop i .client true ⟨p.srcNodeId,p.buffer,stack,noneDead i⟩ = false := by
    simp [Reception.shouldDrop, messageShouldDrop, noneDead]
  have hread : Wire.receive floats p.buffer stack .client = _ := hreceive
  simp only [receiveWithTagBlock, hread, hkept, overwrite]
  rfl

/-! Where the nodes are. -/

/-- What a node still has to call. A `sendPort` is done with once its buffer is under way. -/
def owes (call : PortRing.Call) : Phase → Bool
  | .calls todo => todo.contains call
  | .sending todo => todo.contains call
  | .failed => true

/-- A phase of `exchangePorts`. -/
inductive Along (i : Fin n) : Phase → Prop
  | calls (h : todo <:+ exchangePorts i) : Along i (.calls todo)
  | sending (h : .sendPort::todo <:+ exchangePorts i) : Along i (.sending todo)

theorem exchangePorts_nodup (i : Fin n) : (exchangePorts i).Nodup := by
  unfold exchangePorts
  split <;> decide

/-- One call has been made. -/
theorem Along.called (h : Along i (.calls (call::todo))) : Along i (.calls todo) ∧
    call ∉ todo := by
  obtain ⟨h⟩ := h
  exact ⟨.calls ((List.suffix_cons _ _).trans h),
    (List.nodup_cons.mp (h.sublist.nodup (exchangePorts_nodup i))).1⟩

/-- The edge on which `sender` sends its port: whether it still has to, whether the other end
still has to receive it, what is under way, and the port that has been received. -/
inductive PortEdge (ports : Fin n → Utf8) (sender : Fin n) : Bool → Bool → List (Packet n) →
    Bytes → Prop
  | unsent : PortEdge ports sender true true [] port
  | underWay (h : IsPort ports sender p) : PortEdge ports sender false true [p] port
  | received : PortEdge ports sender false false [] (ports sender).bytes

theorem PortEdge.of_unsent (h : PortEdge ports sender true b inbox port) :
    b = true ∧ inbox = [] := by
  cases h
  exact ⟨rfl,rfl⟩

theorem PortEdge.of_sent (h : PortEdge ports sender false true inbox port) :
    ∃ p, inbox = [p] ∧ IsPort ports sender p := by
  cases h with
  | underWay hp => exact ⟨_,rfl,hp⟩

theorem PortEdge.of_received (h : PortEdge ports sender b false inbox port) :
    b = false ∧ inbox = [] ∧ port = (ports sender).bytes := by
  cases h
  exact ⟨rfl,rfl,rfl⟩

theorem PortEdge.of_packet (h : PortEdge ports sender b b' inbox port) (hp : inbox[k]? = some p) :
    b = false ∧ inbox.eraseIdx k = [] ∧ IsPort ports sender p := by
  cases h with
  | unsent => simp at hp
  | received => simp at hp
  | underWay hport =>
    cases k with
    | zero =>
      cases hp
      exact ⟨rfl,rfl,hport⟩
    | succ k => simp at hp

structure RingOk (ports : Fin n → Utf8) (s : Ring n) : Prop where
  along : ∀ i, Along i (s.nodes i)
  edge : ∀ i, PortEdge ports (next i) (owes .sendPort (s.nodes (next i)))
    (owes .receivePort (s.nodes i)) (s.inbox i) (s.nextNodePort i)

theorem owes_start (call : PortRing.Call) (i : Fin n) :
    owes call (.calls (exchangePorts i)) = true := by
  unfold exchangePorts
  cases call <;> split <;> rfl

/-- The step of one node changes what is still to be called by itself only. -/
theorem owes_update (call : PortRing.Call) (nodes : Fin n → Phase) (i : Fin n) (phase : Phase)
    (j : Fin n) :
    owes call (Function.update nodes i phase j) =
      if j = i then owes call phase else owes call (nodes j) := by
  by_cases hj : j = i
  · subst hj
    simp
  · simp [hj]

theorem along_update {nodes : Fin n → Phase} (h : ∀ i, Along i (nodes i)) (hi : Along i phase)
    (j : Fin n) :
    Along j (Function.update nodes i phase j) := by
  by_cases hj : j = i
  · subst hj
    simpa using hi
  · simpa [hj] using h j

theorem RingOk.send (h : RingOk ports s) (hphase : s.nodes i = .calls (.sendPort::todo))
    (hp : IsPort ports i p) :
    RingOk ports (setInbox (setPhase s i (.sending todo)) (prevNodeId i)
      (s.inbox (prevNodeId i) ++ [p])) := by
  have halong := h.along i
  rw [hphase] at halong
  have hsent : owes .sendPort (.sending todo) = false := by simpa [owes] using halong.called.2
  have hreceive : ∀ j, owes .receivePort (Function.update s.nodes i (.sending todo) j) =
      owes .receivePort (s.nodes j) := by
    intro j
    rw [owes_update]
    split
    · rename_i hj
      simp [hj, hphase, owes]
    · rfl
  obtain ⟨hsuffix⟩ := halong
  refine ⟨along_update h.along (.sending hsuffix),?_⟩
  intro j
  have hedge := h.edge j
  simp only [setInbox, setPhase, hreceive, owes_update]
  by_cases hj : j = prevNodeId i
  · subst hj
    have hunsent : owes .sendPort (s.nodes i) = true := by simp [hphase, owes]
    simp only [next_prevNodeId] at hedge ⊢
    rw [hunsent] at hedge
    obtain ⟨howes,hinbox⟩ := hedge.of_unsent
    rw [if_pos trivial, hsent, howes, Function.update_self, hinbox]
    exact .underWay hp
  · have hnext : next j ≠ i := by
      rintro rfl
      exact hj (prevNodeId_next j).symm
    rw [if_neg hnext, Function.update_of_ne hj]
    exact hedge

/-- A send that has nothing left to wait for. -/
theorem RingOk.complete (h : RingOk ports s) (hphase : s.nodes i = .sending todo) :
    RingOk ports (setPhase s i (.calls todo)) := by
  have halong := h.along i
  rw [hphase] at halong
  obtain - | ⟨hsuffix⟩ := halong
  have howes : ∀ call j, owes call (Function.update s.nodes i (.calls todo) j) =
      owes call (s.nodes j) := by
    intro call j
    rw [owes_update]
    split
    · rename_i hj
      simp [hj, hphase, owes]
    · rfl
  refine ⟨along_update h.along (Along.calls hsuffix).called.1,?_⟩
  intro j
  simp only [setPhase, howes]
  exact h.edge j

theorem RingOk.receive (h : RingOk ports s) (hphase : s.nodes i = .calls (.receivePort::todo))
    (hp : (s.inbox i)[k]? = some p) :
    IsPort ports (next i) p ∧
    RingOk ports (setNextNodePort (setPhase (setInbox s i ((s.inbox i).eraseIdx k)) i (.calls todo))
      i (ports (next i)).bytes) := by
  have halong := h.along i
  rw [hphase] at halong
  obtain ⟨hcalls,hnot⟩ := halong.called
  have hreceived : owes .receivePort (.calls todo) = false := by simpa [owes] using hnot
  have hsend : ∀ j, owes .sendPort (Function.update s.nodes i (.calls todo) j) =
      owes .sendPort (s.nodes j) := by
    intro j
    rw [owes_update]
    split
    · rename_i hj
      simp [hj, hphase, owes]
    · rfl
  obtain ⟨hsent,herased,hport⟩ := (h.edge i).of_packet hp
  refine ⟨hport,along_update h.along hcalls,?_⟩
  intro j
  simp only [setInbox, setPhase, setNextNodePort, hsend, owes_update]
  by_cases hj : j = i
  · subst hj
    rw [if_pos rfl, hreceived, hsent, Function.update_self, Function.update_self, herased]
    exact .received
  · rw [if_neg hj, Function.update_of_ne hj, Function.update_of_ne hj]
    exact h.edge j

section
variable {floats : Floats} {ports : Fin n → Utf8} {synchronous : Fin n → Bool}

/-- What a move of a ring in order comes to. -/
inductive RingStep (ports : Fin n → Utf8) (s : Ring n) : Ring n → Prop
  | sends (hphase : s.nodes i = .calls (.sendPort::todo)) (hp : IsPort ports i p) :
      RingStep ports s (setInbox (setPhase s i (.sending todo)) (prevNodeId i)
        (s.inbox (prevNodeId i) ++ [p]))
  | completes (hphase : s.nodes i = .sending todo) :
      RingStep ports s (setPhase s i (.calls todo))
  | receives (hphase : s.nodes i = .calls (.receivePort::todo)) (hp : (s.inbox i)[k]? = some p) :
      RingStep ports s (setNextNodePort (setPhase (setInbox s i ((s.inbox i).eraseIdx k)) i
        (.calls todo)) i (ports (next i)).bytes)

theorem ringStep_of_step (h : RingOk ports s) (hok : fitting ports es s move)
    (hs : step floats ports synchronous s move = some t) : RingStep ports s t := by
  cases move with
  | send i wtime heap =>
    simp only [step] at hs
    split at hs
    · rename_i todo hphase
      have hkept : messageShouldDrop (noneDead i) i (prevNodeId i) true .client = false := by
        simp [messageShouldDrop, noneDead]
      simp only [hkept, Bool.false_eq_true, if_false, Option.some.injEq] at hs
      subst hs
      exact .sends hphase ⟨rfl,wtime,heap,hok,rfl⟩
    · cases hs
  | complete i =>
    simp only [step] at hs
    split at hs
    · rename_i todo hphase
      split at hs
      · cases hs
        exact .completes hphase
      · cases hs
    · cases hs
  | receive i k stack message =>
    simp only [step] at hs
    split at hs
    · rename_i todo packet hphase hpacket
      obtain ⟨hport,-⟩ := h.receive hphase hpacket
      obtain ⟨received,hreturned,hread⟩ := receive_port floats hport i stack message
      simp only [hreturned, hread, Option.some.injEq] at hs
      subst hs
      exact .receives hphase hpacket
    · cases hs

theorem RingStep.ringOk (hs : RingStep ports s t) (h : RingOk ports s) : RingOk ports t := by
  cases hs with
  | sends hphase hp => exact h.send hphase hp
  | completes hphase => exact h.complete hphase
  | receives hphase hp => exact (h.receive hphase hp).2

/-- The moves a call takes: a send is under way before it completes. -/
def movesOf : PortRing.Call → Nat
  | .sendPort => 2
  | .receivePort => 1

/-- The moves a node still has to make. -/
def remaining : Phase → Nat
  | .calls todo => (todo.map movesOf).sum
  | .sending todo => 1 + (todo.map movesOf).sum
  | .failed => 0

theorem remaining_start (i : Fin n) : remaining (.calls (exchangePorts i)) = 3 := by
  unfold exchangePorts
  split <;> rfl

theorem remaining_eq_zero (h : Along i phase) : remaining phase = 0 ↔ phase = .calls [] := by
  cases h with
  | @calls todo _ =>
    cases todo with
    | nil => simp [remaining]
    | cons call todo => cases call <;> simp [remaining, movesOf]
  | sending _ => simp [remaining]

/-- Every move takes one off what one node still has to make. -/
theorem RingStep.moves (hs : RingStep ports s t) : ∃ i phase,
    t.nodes = Function.update s.nodes i phase ∧ remaining phase + 1 = remaining (s.nodes i) := by
  cases hs with
  | @sends i todo p hphase hp =>
    refine ⟨i,.sending todo,rfl,?_⟩
    simp only [hphase, remaining, List.map_cons, List.sum_cons, movesOf]
    omega
  | @completes i todo hphase =>
    refine ⟨i,.calls todo,rfl,?_⟩
    simp only [hphase, remaining]
    omega
  | @receives i todo k p hphase hp =>
    refine ⟨i,.calls todo,rfl,?_⟩
    simp only [hphase, remaining, List.map_cons, List.sum_cons, movesOf]
    omega

theorem RingStep.remaining_sum (hs : RingStep ports s t) :
    ∑ i, remaining (t.nodes i) + 1 = ∑ i, remaining (s.nodes i) := by
  obtain ⟨i,phase,hnodes,hless⟩ := hs.moves
  have hchange := sum_change (fun j => remaining (s.nodes j)) (fun j => remaining (t.nodes j)) i
    (fun j hj => by rw [hnodes, Function.update_of_ne hj])
  have hself : t.nodes i = phase := by rw [hnodes, Function.update_self]
  simp only [hself] at hchange
  omega

/-- The moves made and the moves to be made are three for each node. -/
structure RingCounted (ports : Fin n → Utf8) (s : Ring n) (es : List (Move n)) : Prop where
  ok : RingOk ports s
  count : es.length + ∑ i, remaining (s.nodes i) = 3 * n

theorem ringCounted_reach
    (hr : (portRing floats ports synchronous).Reach (fitting ports) s es) :
    RingCounted ports s es := by
  induction hr with
  | start =>
    refine ⟨⟨fun i => .calls (List.suffix_refl _),fun i => ?_⟩,?_⟩
    · simp only [portRing, owes_start]
      exact .unsent
    · simp [portRing, remaining_start, Nat.mul_comm]
  | step hr hok hs ih =>
    simp only [portRing, Option.map_eq_some_iff] at hs
    obtain ⟨t,hs,heq⟩ := hs
    cases heq
    have hstep := ringStep_of_step ih.ok hok hs
    have hsum := hstep.remaining_sum
    have hcount := ih.count
    refine ⟨hstep.ringOk ih.ok,?_⟩
    rw [List.length_append, List.length_singleton]
    omega

/-- All moves have been made when everybody has finished. -/
theorem RingCounted.finished_iff (h : RingCounted ports s es) :
    es.length = 3 * n ↔ ∀ i, s.nodes i = .calls [] := by
  have hcount := h.count
  have hzero : ∑ i, remaining (s.nodes i) = 0 ↔ ∀ i, s.nodes i = .calls [] := by
    simp [Finset.sum_eq_zero_iff, fun i => remaining_eq_zero (h.ok.along i)]
  rw [← hzero]
  omega

/-! Nobody gets stuck. -/

/-- Nobody can take a step. -/
def Halted (floats : Floats) (ports : Fin n → Utf8) (synchronous : Fin n → Bool) (s : Ring n) :
    Prop := ∀ move, step floats ports synchronous s move = none

theorem Halted.not_sending (h : Halted floats ports synchronous s) :
    s.nodes i ≠ .calls (.sendPort::todo) := by
  intro hphase
  have hsend := h (.send i 0 [])
  simp [step, hphase, messageShouldDrop, noneDead] at hsend

theorem Halted.nothing_to_receive (h : Halted floats ports synchronous s)
    (hphase : s.nodes i = .calls (.receivePort::todo)) : s.inbox i = [] := by
  cases hinbox : s.inbox i with
  | nil => rfl
  | cons p packets =>
    have hreceive := h (.receive i 0 [] { tag := 0, code := 0, id := 0 })
    simp only [step, hphase, hinbox, List.getElem?_cons_zero] at hreceive
    split at hreceive
    · split at hreceive <;> cases hreceive
    · cases hreceive
    · cases hreceive

theorem Halted.unmatched (h : Halted floats ports synchronous s)
    (hphase : s.nodes i = .sending todo) : s.inbox (prevNodeId i) ≠ [] := by
  intro hinbox
  have hcomplete := h (.complete i)
  simp [step, hphase, hinbox] at hcomplete

/-- Node 0 sends first. -/
theorem along_first (h : Along i phase) (hi : i.val = 0) :
    phase = .calls [.sendPort,.receivePort] ∨ phase = .sending [.receivePort] ∨
      phase = .calls [.receivePort] ∨ phase = .calls [] := by
  cases h with
  | calls h =>
    simp only [exchangePorts, hi, if_true, List.suffix_cons_iff, List.suffix_nil] at h
    rcases h with rfl | rfl | rfl <;> simp
  | sending h =>
    simp only [exchangePorts, hi, if_true, List.suffix_cons_iff, List.suffix_nil] at h
    rcases h with h | h | h <;> cases h
    simp

/-- Everybody else receives first. -/
theorem along_other (h : Along i phase) (hi : i.val ≠ 0) :
    phase = .calls [.receivePort,.sendPort] ∨ phase = .calls [.sendPort] ∨
      phase = .sending [] ∨ phase = .calls [] := by
  cases h with
  | calls h =>
    simp only [exchangePorts, if_neg hi, List.suffix_cons_iff, List.suffix_nil] at h
    rcases h with rfl | rfl | rfl <;> simp
  | sending h =>
    simp only [exchangePorts, if_neg hi, List.suffix_cons_iff, List.suffix_nil] at h
    rcases h with h | h | h <;> cases h
    simp

/-- Where nobody can move, a node other than 0 whose successor has sent has received, and has
sent as well. -/
theorem Halted.passes_on (h : Halted floats ports synchronous s) (hok : RingOk ports s)
    (hi : i.val ≠ 0) (hnext : owes .sendPort (s.nodes (next i)) = false) :
    owes .receivePort (s.nodes i) = false ∧ owes .sendPort (s.nodes i) = false := by
  rcases along_other (hok.along i) hi with hphase | hphase | hphase | hphase
  · have hedge := hok.edge i
    rw [hnext, hphase] at hedge
    obtain ⟨p,hinbox,-⟩ := hedge.of_sent
    rw [h.nothing_to_receive hphase] at hinbox
    contradiction
  · exact absurd hphase h.not_sending
  · simp [hphase, owes]
  · simp [hphase, owes]

/-- From node 0 down along the ring, everybody has received and sent. -/
theorem Halted.all_passed (h : Halted floats ports synchronous s) (hok : RingOk ports s)
    (k : Nat) (i : Fin n) (hk : i.val + k + 1 = n) (hi : i.val ≠ 0) :
    owes .receivePort (s.nodes i) = false ∧ owes .sendPort (s.nodes i) = false := by
  induction k generalizing i with
  | zero =>
    have hzero : (next i).val = 0 := by
      have hlast : i.val + 1 = n := by omega
      simp only [next, hlast, Nat.mod_self]
    refine h.passes_on hok hi ?_
    rcases along_first (hok.along (next i)) hzero with hphase | hphase | hphase | hphase
    · exact absurd hphase h.not_sending
    · simp [hphase, owes]
    · simp [hphase, owes]
    · simp [hphase, owes]
  | succ k ih =>
    have hsucc : (next i).val = i.val + 1 := Nat.mod_eq_of_lt (by omega)
    exact h.passes_on hok hi (ih (next i) (by omega) (by omega)).2

/-- Then node 0 has finished: its buffer has been received, and its successor's has come. -/
theorem Halted.first_finished (h : Halted floats ports synchronous s) (hok : RingOk ports s)
    (hpassed : ∀ j : Fin n, j.val ≠ 0 →
      owes .receivePort (s.nodes j) = false ∧ owes .sendPort (s.nodes j) = false)
    (hn : 2 ≤ n) (i : Fin n) (hi : i.val = 0) : s.nodes i = .calls [] := by
  have hnext : (next i).val ≠ 0 := by
    have hone : (next i).val = i.val + 1 := Nat.mod_eq_of_lt (by omega)
    omega
  have hprev : (prevNodeId i).val ≠ 0 := by
    simp only [prevNodeId, hi, if_true]
    omega
  rcases along_first (hok.along i) hi with hphase | hphase | hphase | hphase
  · exact absurd hphase h.not_sending
  · have hedge := hok.edge (prevNodeId i)
    rw [(hpassed _ hprev).1] at hedge
    exact absurd hedge.of_received.2.1 (h.unmatched hphase)
  · have hedge := hok.edge i
    rw [(hpassed _ hnext).2, hphase] at hedge
    obtain ⟨p,hinbox,-⟩ := hedge.of_sent
    rw [h.nothing_to_receive hphase] at hinbox
    contradiction
  · exact hphase

/-- And so has everybody. -/
theorem Halted.finished (h : Halted floats ports synchronous s) (hok : RingOk ports s)
    (hn : 2 ≤ n) (i : Fin n) : s.nodes i = .calls [] := by
  have hpassed : ∀ j : Fin n, j.val ≠ 0 →
      owes .receivePort (s.nodes j) = false ∧ owes .sendPort (s.nodes j) = false := by
    intro j hj
    have hlt := j.isLt
    exact h.all_passed hok (n - 1 - j.val) j (by omega) hj
  have hfirst := h.first_finished hok hpassed hn
  have hreceived : ∀ j, owes .receivePort (s.nodes j) = false := by
    intro j
    by_cases hj : j.val = 0
    · rw [hfirst j hj]
      rfl
    · exact (hpassed j hj).1
  by_cases hi : i.val = 0
  · exact hfirst i hi
  · rcases along_other (hok.along i) hi with hphase | hphase | hphase | hphase
    · have howes := hreceived i
      rw [hphase] at howes
      contradiction
    · exact absurd hphase h.not_sending
    · have hedge := hok.edge (prevNodeId i)
      rw [hreceived (prevNodeId i)] at hedge
      exact absurd hedge.of_received.2.1 (h.unmatched hphase)
    · exact hphase

end

/-- The exchange of ports never gets stuck, whether a send waits for its receiver or not, and is
over after three moves of each node. Who has finished has its successor's port. -/
theorem ports_exchanged (floats : Floats) (ports : Fin n → Utf8) (synchronous : Fin n → Bool)
    (hn : 2 ≤ n) (hr : (portRing floats ports synchronous).Reach (fitting ports) s es) :
    ((∃ i, s.nodes i ≠ .calls []) →
      ∃ move, ((portRing floats ports synchronous).step s move).isSome) ∧
    es.length ≤ 3 * n ∧
    (es.length = 3 * n ↔ ∀ i, s.nodes i = .calls []) ∧
    ∀ i, s.nodes i = .calls [] → s.nextNodePort i = (ports (next i)).bytes := by
  have hcounted := ringCounted_reach hr
  have hok := hcounted.ok
  refine ⟨?_,?_,hcounted.finished_iff,?_⟩
  · rintro ⟨i,hi⟩
    by_contra hnone
    have hstuck : Halted floats ports synchronous s := by
      intro move
      cases hs : step floats ports synchronous s move with
      | none => rfl
      | some t => exact absurd ⟨move,by simp [portRing, hs]⟩ hnone
    exact hi (hstuck.finished hok hn i)
  · have hcount := hcounted.count
    omega
  · intro i hi
    have hedge := hok.edge i
    rw [hi] at hedge
    exact hedge.of_received.2.2

/-- A port for each of three nodes. -/
def threePorts (i : Fin n) : Utf8 :=
  if i.val = 0 then ⟨ascii ['a'],by decide⟩
  else if i.val = 1 then ⟨ascii ['b'],by decide⟩
  else ⟨ascii ['c'],by decide⟩

/-- Every send completes after its buffer has been received. -/
def allReceived (p q r : Fin n) : List (Move n) :=
  [.send p 7 [],.receive r 0 [] ⟨0,0,0,none,false⟩,.complete p,
   .send r 8 [],.receive q 0 [] ⟨0,0,0,none,false⟩,.send q 9 [],
   .receive p 0 [] ⟨0,0,0,none,false⟩,.complete r,.complete q]

def fits (ports : Fin n → Utf8) : Move n → Bool
  | .send i wtime _ => wireLength (portMessage i wtime (ports i)) < Wire.maxMessageSize
  | _ => true

theorem fitting_of_fits (h : fits ports move = true) : fitting ports es s move := by
  cases move with
  | send i wtime heap => simpa [fits, fitting] using h
  | complete i => trivial
  | receive i k stack message => trivial

theorem allReceived_run : ∃ s es,
    (portRing (n := 3) noFloats threePorts (fun _ => true)).Reach (fitting threePorts) s es ∧
      es.length = 9 :=
  Machine.exists_reach (f := fun p => p.2.length) (fun _ _ _ => fitting_of_fits)
    (show ((portRing noFloats threePorts (fun _ => true)).follow
      (fun _ _ move => fits threePorts move) (allReceived 0 1 2)
      (portRing noFloats threePorts (fun _ => true)).start []).map (fun p => p.2.length) =
      some 9 by decide +kernel)

theorem ports_exchanged_allReceived :
    (∃ move, ((portRing (n := 3) noFloats threePorts (fun _ => true)).step
      (portRing noFloats threePorts (fun _ => true)).start move).isSome) ∧
    ∃ s es, (portRing (n := 3) noFloats threePorts (fun _ => true)).Reach
      (fitting threePorts) s es ∧ (s.nextNodePort 0,s.nextNodePort 1,s.nextNodePort 2) =
        (ascii ['b'],ascii ['c'],ascii ['a']) := by
  obtain ⟨s,es,hr,hlength⟩ := allReceived_run
  obtain ⟨-,-,hfinished,hports⟩ := ports_exchanged noFloats threePorts (fun _ => true)
    (by decide) hr
  have hall := hfinished.mp hlength
  refine ⟨(ports_exchanged noFloats threePorts (fun _ => true) (by decide) .start).1
    ⟨0,by decide⟩,s,es,hr,?_⟩
  rw [hports 0 (hall 0), hports 1 (hall 1), hports 2 (hall 2)]
  decide

end Algorep.Proofs
