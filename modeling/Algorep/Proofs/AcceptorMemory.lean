import Algorep.Kit.Before
import Algorep.Proofs.LearnedValue

namespace Algorep.Proofs
open Kit Program Program.Consensus

def acceptance : Obs (Fin n) Packet (Event n) → Option (Option (Int × String))
  | .did (.accepted _ _ roundId value) => some (some (roundId,value))
  | _ => none

/-- The last PROPOSE a node has accepted, by its history. -/
def lastAccepted (h : List (Obs (Fin n) Packet (Event n))) : Option (Int × String) :=
  latest acceptance none h

def remembering : Obs (Fin n) Packet (Event n) → Option (Option (Int × String))
  | .did (.accepted _ _ roundId value) => some (some (roundId,value))
  | .received _ ⟨.accepted _ _ _,_⟩ => some none
  | _ => none

/-- The same, as long as no ACCEPTED has been handled since. -/
def remembered (h : List (Obs (Fin n) Packet (Event n))) : Option (Int × String) :=
  latest remembering none h

theorem acceptance_none (h : remembering o = none) : acceptance o = none := by
  unfold remembering at h
  split at h
  · contradiction
  · contradiction
  · rename_i hd _
    cases o with
    | did e =>
      cases e with
      | accepted => exact absurd rfl (hd _ _ _ _)
      | _ => rfl
    | sent | received => rfl

/-- A PROMISE reports what its sender is to remember. -/
def ReportsMemory (o : Obs (Fin n) Packet (Event n))
    (before : List (Obs (Fin n) Packet (Event n))) : Prop :=
  match o with
  | .sent _ ⟨.promise _ _ accepted,_⟩ => ∀ p, remembered before = some p → accepted = some p
  | _ => True

structure AcceptorMemory (s : Node n) (h : List (Obs (Fin n) Packet (Event n))) : Prop where
  stored : s.context.valueAccepted = true →
    lastAccepted h = some (s.context.acceptedId,s.context.acceptedValue)
  kept : ∀ p, remembered h = some p → s.context.valueAccepted = true ∧
    p = (s.context.acceptedId,s.context.acceptedValue)
  reports : Preceded ReportsMemory h

/-- `handlePromiseMessage` takes the reported value over. -/
def takesOver (message : Message) (context : Context) : Bool :=
  match message with
  | .promise _ roundId accepted => roundId == context.roundId &&
    decide (context.maxAcceptedId < (accepted.map Prod.fst).getD (-1))
  | _ => false

/-- The value a PROMISE reports. -/
def reportedValue : Message → String
  | .promise _ _ accepted => (accepted.map Prod.snd).getD ""
  | _ => ""

/-- A node that remembers a value takes no other value over from a PROMISE, and does
not return from `startConsensus`. -/
def KeepsMemory (s : Node n) : Input (Fin n) Action Nat Packet → Prop
  | .act (.proceed _) => ∀ b, s.thread = .logWait b →
    s.context.valueAccepted = false ∨ s.resetting = true
  | .act _ => True
  | .handle _ packet _ => takesOver packet.message s.context = true →
    s.context.valueAccepted = true → reportedValue packet.message = s.context.acceptedValue

/-- The invariant of the guarded runs. -/
structure Remembers (s : Node n) (h : List (Obs (Fin n) Packet (Event n))) : Prop
    extends AcceptorMemory s h where
  resetting : s.resetting = true → remembered h = none

theorem Remembers.quiet {s s' : Node n} {h' : List (Obs (Fin n) Packet (Event n))}
    (hs : Remembers s h) (hf : ∀ o ∈ h', remembering o = none)
    (hv : s'.context.valueAccepted = s.context.valueAccepted)
    (hi : s'.context.acceptedId = s.context.acceptedId)
    (ha : s.context.valueAccepted = true → s'.context.acceptedValue = s.context.acceptedValue)
    (hb : s'.resetting = s.resetting) (hp : Preceded ReportsMemory (h ++ h')) :
    Remembers s' (h ++ h') := by
  refine ⟨⟨?_,?_,hp⟩,?_⟩
  · intro hacc
    rw [hv] at hacc
    rw [lastAccepted, latest_quiet _ (fun o ho => acceptance_none (hf o ho)), hi, ha hacc]
    exact hs.stored hacc
  · intro p hm
    rw [remembered, latest_quiet _ hf] at hm
    obtain ⟨hacc,he⟩ := hs.kept p hm
    rw [hv, hi, ha hacc]
    exact ⟨hacc,he⟩
  · intro hr
    rw [remembered, latest_quiet _ hf]
    exact hs.resetting (hb ▸ hr)

/-- A context may be wiped when there is nothing to remember. -/
theorem Remembers.wiped {s' : Node n} {h' : List (Obs (Fin n) Packet (Event n))}
    (hn : remembered h = none) (hf : ∀ o ∈ h', remembering o = none)
    (hc : s'.context = {}) (hp : Preceded ReportsMemory (h ++ h')) : Remembers s' (h ++ h') := by
  have hnone : remembered (h ++ h') = none := by rw [remembered, latest_quiet _ hf, ← remembered, hn]
  refine ⟨⟨?_,?_,hp⟩,fun _ => hnone⟩
  · intro hacc
    simp [hc] at hacc
  · intro p hm
    rw [hnone] at hm
    contradiction

theorem acts_remembers {s : Node n} (hs : Remembers s h) (hcur : Told rank s.calls s.thread es)
    (hok : KeepsMemory s (.act a)) (ha : Acts rank s a out) :
    Remembers out.state (h ++ out.trace) := by
  have hnew : ∀ o ∈ out.trace, remembering o = none ∧ ∀ before, ReportsMemory o before := by
    intro o ho
    rcases mem_trace.mp ho with ⟨e,he,rfl⟩ | ⟨dst,packet,hsend,rfl⟩
    · cases ha
      all_goals simp only [List.mem_cons, List.not_mem_nil, or_false] at he
      all_goals subst e; exact ⟨rfl,fun _ => trivial⟩
    · refine ⟨rfl,fun before => ?_⟩
      have hm := acts_send_no_reply hcur ha hsend
      obtain ⟨message,call⟩ := packet
      cases message with
      | promise | accept => contradiction
      | _ => trivial
  have hquiet : ∀ o ∈ out.trace, remembering o = none := fun o ho => (hnew o ho).1
  have hreports : Preceded ReportsMemory (h ++ out.trace) :=
    hs.reports.append_free (fun o ho => (hnew o ho).2)
  cases ha with
  | returned b ht =>
    refine .wiped ?_ hquiet rfl hreports
    rcases hok b ht with hv | hr
    · cases hm : remembered h with
      | none => rfl
      | some p =>
        have hacc := (hs.kept p hm).1
        rw [hv] at hacc
        contradiction
    · exact hs.resetting hr
  | reset hb => exact .wiped (hs.resetting hb) hquiet rfl hreports
  | _ => exact hs.quiet hquiet rfl rfl (fun _ => rfl) rfl hreports

/-- `handlePromiseMessage` leaves the acceptor's fields alone, except for a value it
takes over. -/
theorem handlePromise_memory (id roundId : Int) (accepted : Option (Int × String))
    (context : Context) : (handlePromiseMessage roundId accepted context).valueAccepted =
      context.valueAccepted ∧
    (handlePromiseMessage roundId accepted context).acceptedId = context.acceptedId ∧
    (handlePromiseMessage roundId accepted context).acceptedValue =
      if takesOver (.promise id roundId accepted) context then
        reportedValue (.promise id roundId accepted)
      else context.acceptedValue := by
  by_cases hr : roundId = context.roundId
  · by_cases ha : context.maxAcceptedId < (accepted.map Prod.fst).getD (-1) <;>
      simp [handlePromiseMessage, takesOver, reportedValue, hr, ha]
  · simp [handlePromiseMessage, takesOver, hr]

theorem handles_remembers {rank : Fin n} (hs : Remembers s h) (hb : s.resetting = false)
    (hok : KeepsMemory s (.handle src packet now)) (ha : Handles rank s src packet now out) :
    Remembers out.state (h ++ .received src packet::out.trace) := by
  obtain ⟨message,call⟩ := packet
  have hreceived : Preceded ReportsMemory (h ++ [.received src ⟨message,call⟩]) :=
    hs.reports.snoc trivial
  cases ha with
  | promised pid hm hid =>
    dsimp only at hm
    subst hm
    refine hs.quiet (by simp [Outcome.trace, remembering]) rfl rfl (fun _ => rfl) rfl ?_
    have hpromised := hreceived.snoc (x := .did (.promised src call pid)) (by trivial)
    have hsent := hpromised.snoc (x := .sent src
      ⟨.promise (generateUniqueId rank now) pid (reported s.context),call⟩) ?_
    · simpa [Outcome.trace] using hsent
    · intro p hp
      rw [List.append_assoc, remembered, latest_quiet _ (by simp [remembering])] at hp
      obtain ⟨hacc,rfl⟩ := hs.kept p hp
      simp [reported, hacc]
  | accepted pid roundId value hm hid =>
    dsimp only at hm
    subst hm
    refine ⟨⟨?_,?_,?_⟩,?_⟩
    · intro _
      simp [lastAccepted, latest_append, Outcome.trace, acceptance]
    · intro p hp
      simp only [remembered, latest_append, Outcome.trace, remembering, List.map_cons,
        List.map_nil, Option.map_some, Option.toList_some, List.cons_append, List.nil_append,
        latest_cons, latest_nil, Option.getD_some, Option.getD_none, Option.some.injEq] at hp
      exact ⟨rfl,hp.symm⟩
    · have haccepted := hreceived.snoc (x := .did (.accepted src call roundId value)) (by trivial)
      have hsent := haccepted.snoc (x := .sent src
        ⟨.accept (generateUniqueId rank now) pid,call⟩) (by trivial)
      simpa [Outcome.trace] using hsent
    · intro hr
      dsimp only at hr
      rw [hb] at hr
      contradiction
  | learned pid roundId value hm =>
    dsimp only at hm
    subst hm
    have hnone : remembered (h ++ .received src ⟨.accepted pid roundId value,call⟩::
        [.did (.appended src call value)]) = none := by
      simp [remembered, latest_append, remembering]
    refine ⟨⟨?_,?_,?_⟩,fun _ => hnone⟩
    · intro hacc
      rw [lastAccepted, latest_quiet _ (by simp [Outcome.trace, acceptance])]
      exact hs.stored hacc
    · intro p hp
      rw [Outcome.trace] at hp
      exact absurd (hnone.symm.trans hp) (by simp)
    · have happended := hreceived.snoc (x := .did (.appended src call value)) (by trivial)
      simpa [Outcome.trace] using happended
  | countedPromise pid roundId accepted hm =>
    dsimp only at hm
    subst hm
    obtain ⟨hv,hi,hvalue⟩ := handlePromise_memory pid roundId accepted s.context
    refine hs.quiet (by simp [Outcome.trace, remembering]) hv hi ?_ rfl hreceived
    intro hacc
    dsimp only
    rw [hvalue]
    split
    · rename_i ht
      exact hok ht hacc
    · rfl
  | refusedPrepare pid hm hid | refusedPropose pid roundId value hm hid
  | countedAccept pid roundId hm =>
    dsimp only at hm
    subst hm
    exact hs.quiet (by simp [Outcome.trace, remembering]) rfl rfl (fun _ => rfl) rfl hreceived

theorem run_remembers
    (hr : LocalRun (process n) (fun s x => Foreign i s x ∧ KeepsMemory s x) i s h) :
    Remembers s h := by
  induction hr with
  | start => exact ⟨⟨by simp [process],by simp [remembered],.nil⟩,by simp [process]⟩
  | act hr hok ho ih =>
    have hcur := (run_recorded (hr.mono fun _ _ h => h.1)).current
    exact acts_remembers ih hcur hok.2 (acts_of_act ho)
  | handle _ hok ho ih =>
    obtain ⟨hb,ha⟩ := handles_of_handle ho
    exact handles_remembers ih hb hok.2 ha

/-- While a node remembers a value, it takes no other one over from a PROMISE and does
not return from `startConsensus`, unless it is handling an ACCEPTED. -/
def keepsMemory (_ : History n) (s : Cluster n) (l : Move n) : Bool :=
  match l.2 with
  | .act i (.proceed _) =>
    match (s.nodes i).thread with
    | .logWait _ => !(s.nodes i).context.valueAccepted || (s.nodes i).resetting
    | _ => true
  | .deliver src dst _ => !l.1 dst src || (s.chan src dst).head?.all (fun m =>
      !takesOver m.message (s.nodes dst).context || !(s.nodes dst).context.valueAccepted ||
        reportedValue m.message == (s.nodes dst).context.acceptedValue)
  | _ => true

theorem keepsMemory_local (i : Fin n) : Process.Respects (holding keepsMemory) i KeepsMemory := by
  constructor
  · intro es s up a hok
    cases a with
    | proceed now =>
      intro b hb
      simpa [holding, keepsMemory, hb] using hok
    | _ => trivial
  · intro es s up src o m rest hok hc hu ht hv
    simpa [holding, keepsMemory, hc, hu, ht, hv] using hok

/-- Under these two conditions every acceptor stores its last accepted proposal,
keeps it until it handles an ACCEPTED, and reports it in every PROMISE meanwhile. -/
theorem acceptor_remembers (hr : Reach (n := n) (holding keepsMemory) s es) (i : Fin n) :
    AcceptorMemory (s.nodes i) (historyAt i es) :=
  (run_remembers (reach_guarded (keepsMemory_local i) hr)).toAcceptorMemory

/-- What node `i` is to remember by its history, and what its context says. -/
def memoryAt (i : Fin n) (r : Cluster n × History n) :
    Option (Int × String) × Option (Int × String) × Option (Int × String) :=
  (lastAccepted (historyAt i r.2),remembered (historyAt i r.2),reported (r.1.nodes i).context)

theorem takenOver_memory : outcome (n := 3) keepsMemory (takenOver 0 1 2 "b") (memoryAt 2) =
    some (some (30,"a"),some (30,"a"),some (30,"a")) := by
  decide

theorem acceptor_remembers_takenOver : ∃ (s : Cluster 3) (es : History 3),
    Reach (holding keepsMemory) s es ∧ remembered (historyAt 2 es) = some (30,"a") ∧
    (s.nodes 2).context.valueAccepted = true ∧
    lastAccepted (historyAt 2 es) =
      some ((s.nodes 2).context.acceptedId,(s.nodes 2).context.acceptedValue) := by
  obtain ⟨s,es,hr,h⟩ := Machine.exists_reach (fun _ _ _ h => h) takenOver_memory
  simp only [memoryAt, Prod.mk.injEq] at h
  have hmemory := acceptor_remembers hr 2
  have hacc := (hmemory.kept _ h.2.1).1
  exact ⟨s,es,hr,h.2.1,hacc,hmemory.stored hacc⟩

/-- `r` accepts "a" of `p` while its own call is ending, returns from it, and then
answers a PREPARE of `q`. -/
def returnsAfterAccepting (p q r : Fin n) : List (Move n) :=
  [.call r "c" 5,.proceed r 5,.proceed r 5,.proceed r 10,.call p "a" 10,.proceed p 10,
    .proceed p 10,.deliver p r 10,.deliver r p 10,.deliver r p 10,.proceed p 15,.proceed p 15,
    .proceed p 15,.proceed p 15,.deliver p r 15,.deliver p r 15,.proceed r 16,.call q "b" 30,
    .proceed q 30,.proceed q 30,.deliver q r 30]

/-- `r` accepts "a" of `p` and `q` accepts "b" of `p'`. Then `r` proposes and hears
from `q`. -/
def hearsAnother (p p' q r : Fin n) : List (Move n) :=
  [.call p "a" 10,.proceed p 10,.proceed p 10,.proceed p 10,.deliver p r 10,.deliver r p 10,
    .proceed p 15,.proceed p 15,.proceed p 15,.proceed p 15,.proceed p 15,.deliver p r 15,
    .call p' "b" 20,.proceed p' 20,.proceed p' 20,.proceed p' 20,.deliver p' q 20,
    .deliver q p' 20,.proceed p' 25,.proceed p' 25,.proceed p' 25,.proceed p' 25,.proceed p' 25,
    .deliver p' q 25,.call r "c" 30,.proceed r 30,.proceed r 30,.proceed r 30,.deliver r q 30,
    .deliver q r 30]

theorem returnsAfterAccepting_memory : outcome (n := 3) anyMove (returnsAfterAccepting 0 1 2)
    (fun r => (remembered (historyAt 2 r.2),(r.1.nodes 2).context.valueAccepted,
      decide (.sent 1 ⟨.promise 30 30 none,1⟩ ∈ historyAt 2 r.2))) =
    some (some (10,"a"),false,true) := by
  decide

theorem hearsAnother_memory : outcome (n := 4) anyMove (hearsAnother 0 1 2 3)
    (fun r => (lastAccepted (historyAt 3 r.2),(r.1.nodes 3).context.valueAccepted,
      (r.1.nodes 3).context.acceptedId,(r.1.nodes 3).context.acceptedValue)) =
    some (some (10,"a"),true,10,"b") := by
  decide

/-- A node that has accepted (10,"a") and handled no ACCEPTED holds nothing and sends
a plain PROMISE; another one holds (10,"b"). -/
theorem acceptor_forgets :
    (∃ (s : Cluster 3) (es : History 3), Reach Machine.free s es ∧
      remembered (historyAt 2 es) = some (10,"a") ∧
      (s.nodes 2).context.valueAccepted = false ∧
      .sent 1 ⟨.promise 30 30 none,1⟩ ∈ historyAt 2 es) ∧
    ∃ (s : Cluster 4) (es : History 4), Reach Machine.free s es ∧
      lastAccepted (historyAt 3 es) = some (10,"a") ∧
      (s.nodes 3).context.valueAccepted = true ∧ (s.nodes 3).context.acceptedId = 10 ∧
      (s.nodes 3).context.acceptedValue = "b" := by
  constructor
  · obtain ⟨s,es,hr,h⟩ := Machine.exists_reach (fun _ _ _ _ => trivial) returnsAfterAccepting_memory
    simp only [Prod.mk.injEq, decide_eq_true_eq] at h
    exact ⟨s,es,hr,h⟩
  · obtain ⟨s,es,hr,h⟩ := Machine.exists_reach (fun _ _ _ _ => trivial) hearsAnother_memory
    simp only [Prod.mk.injEq] at h
    exact ⟨s,es,hr,h⟩

end Algorep.Proofs
