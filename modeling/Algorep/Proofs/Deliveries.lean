import Algorep.Proofs.Provenance

namespace Algorep.Proofs
open Kit Program Program.Consensus

/-- A call that has passed both checks, with its argument. -/
def success : Event n → Option (Nat × String)
  | .acceptsSampled c v true => some (c,v)
  | _ => none

/-- A log entry, with the call of `p` it stems from. -/
def entryFrom (p : Fin n) : Event n → Option (Nat × String)
  | .appended src c v => if src = p then some (c,v) else none
  | _ => none

/-- The calls whose ACCEPTED is among the packets. -/
def learned (q : List Packet) : List (Nat × String) :=
  q.filterMap (fun packet => match packet.message with
    | .accepted _ _ v => some (packet.call,v)
    | _ => none)

@[simp] theorem learned_append (q q' : List Packet) : learned (q ++ q') = learned q ++ learned q' :=
  List.filterMap_append

/-- The successful call of `rank` that it has not yet handed over to `i`; to
itself it hands over by appending. -/
def unsent (rank : Fin n) (node : Node n) (i : Fin n) : List (Nat × String) :=
  match node.thread with
  | .majorityAccepted v => [(node.calls,v)]
  | .logWritten v => if i = rank then [] else [(node.calls,v)]
  | .accepted v _ rest => if i ∈ rest then [(node.calls,v)] else []
  | _ => []

/-- The successful calls of `p` that are not in the log of `i` yet, in order. -/
def pending (s : Cluster n) (p i : Fin n) : List (Nat × String) :=
  learned (s.chan p i) ++ unsent p (s.nodes p) i

def handedOver (rank i : Fin n) (h : List (Obs (Fin n) Packet (Event n))) : List (Nat × String) :=
  if i = rank then eventsOf (entryFrom rank) h else learned (sentTo i h)

/-- The successful calls of a node are those handed over and those not. -/
def Owed (rank : Fin n) (node : Node n) (h : List (Obs (Fin n) Packet (Event n))) : Prop :=
  ∀ i, eventsOf success h = handedOver rank i h ++ unsent rank node i

theorem Owed.extend {h h' : List (Obs (Fin n) Packet (Event n))} (hs : Owed rank node h)
    (hx : ∀ i, unsent rank node i ++ eventsOf success h' =
      handedOver rank i h' ++ unsent rank node' i) : Owed rank node' (h ++ h') := by
  intro i
  have hsplit : handedOver rank i (h ++ h') = handedOver rank i h ++ handedOver rank i h' := by
    unfold handedOver
    split <;> simp
  rw [eventsOf_append, hs i, hsplit, List.append_assoc, List.append_assoc, hx i]

theorem handedOver_trace (rank i : Fin n) (out : Result n) : handedOver rank i out.trace =
    if i = rank then out.events.filterMap (entryFrom rank)
    else learned (out.send.bind (fun p => if p.1 = i then some p.2 else none)).toList := by
  rw [handedOver, eventsOf_trace, sentTo_trace]

theorem acts_owed {rank : Fin n} (ht : Told rank node.calls node.thread es)
    (hs : Owed rank node h) (ha : Acts rank node a out) :
    Owed rank out.state (h ++ out.trace) := by
  refine hs.extend ?_
  intro i
  rw [eventsOf_trace, handedOver_trace]
  cases ha with
  | sentPrepare value m dst rest he =>
    rw [he] at ht
    cases ht
    by_cases hd : dst = i <;> simp [unsent, he, hd, learned]
  | sentPropose value m dst rest he =>
    rw [he] at ht
    cases ht
    by_cases hd : dst = i <;> simp [unsent, he, hd, learned]
  | sentAccepted value m dst rest he =>
    rw [he] at ht
    cases ht with
    | announced context hsuf =>
      have hnodup := hsuf.sublist.nodup (others_nodup rank)
      have hne : dst ≠ rank := mem_others.mp (hsuf.subset List.mem_cons_self)
      have hd : dst ∉ rest := (List.nodup_cons.mp hnodup).1
      by_cases hi : i = dst
      · subst hi
        simp [unsent, he, learned, hne, hd]
      · simp [unsent, he, learned, hi, Ne.symm hi]
  | promisesSampled value m he =>
    cases receivePromises n node.context <;>
      simp [unsent, he, learned, List.filterMap_cons, success, entryFrom]
  | acceptsSampled value m he =>
    cases receiveAccepts n node.context <;>
      simp [unsent, he, learned, List.filterMap_cons, success, entryFrom]
  | appended value he =>
    by_cases hi : i = rank <;>
      simp [unsent, he, learned, List.filterMap_cons, success, entryFrom, hi]
  | announced value now he =>
    by_cases hi : i = rank <;>
      simp [unsent, he, learned, List.filterMap_cons, success, entryFrom, hi]
  | called value now he => simp [unsent, he, learned, List.filterMap_cons, success, entryFrom]
  | proposed value now he => simp [unsent, he, learned, List.filterMap_cons, success, entryFrom]
  | reached value m he => simp [unsent, he, learned]
  | returned b he => simp [unsent, he, learned, List.filterMap_cons, success, entryFrom]
  | reset hb => simp [unsent, learned]

theorem handles_owed {rank : Fin n} (hs : Owed rank node h) (hsrc : src ≠ rank)
    (ha : Handles rank node src packet now out) :
    Owed rank out.state (h ++ .received src packet::out.trace) := by
  have hsplit : ∀ i, handedOver rank i (.received src packet::out.trace) =
      handedOver rank i out.trace := fun _ => rfl
  refine hs.extend ?_
  intro i
  rw [eventsOf_received, eventsOf_trace, hsplit, handedOver_trace]
  cases ha with
  | promised | accepted =>
    by_cases hi : src = i <;> simp [unsent, learned, List.filterMap_cons, success, entryFrom, hi]
  | learned => simp [unsent, learned, List.filterMap_cons, success, entryFrom, hsrc]
  | refusedPrepare | countedPromise | refusedPropose | countedAccept => simp [unsent, learned]

theorem run_owed (hr : LocalRun (process n) (Foreign i) i s h) : Owed i s h := by
  induction hr with
  | start =>
    intro j
    simp [process, unsent, handedOver, learned]
  | act hr _ ho ih => exact acts_owed (run_recorded hr).current ih (acts_of_act ho)
  | handle _ hok ho ih => exact handles_owed ih hok (handles_of_handle ho).2

/-- A node appends what it receives in ACCEPTEDs, and nothing else, under their
sender's name. -/
theorem run_entries (hr : LocalRun (process n) (Foreign i) i s h) (hp : p ≠ i) :
    eventsOf (entryFrom p) h = learned (receivedFrom p h) := by
  induction hr with
  | start => rfl
  | act _ _ ho ih =>
    rw [eventsOf_append, receivedFrom_append, receivedFrom_trace, List.append_nil, ih,
      eventsOf_trace]
    cases acts_of_act ho
    all_goals simp [List.filterMap_cons, entryFrom, Ne.symm hp]
  | @handle s h src m o out _ hok ho ih =>
    rw [eventsOf_append, eventsOf_received, eventsOf_trace, receivedFrom_append,
      receivedFrom_received, receivedFrom_trace, learned_append, ih]
    by_cases hsrc : src = p
    · cases (handles_of_handle ho).2
      all_goals
        rename_i hm
        simp_all [List.filterMap_cons, entryFrom, learned]
    · cases (handles_of_handle ho).2
      all_goals simp [List.filterMap_cons, entryFrom, learned, hsrc]

/-- With nobody dead, the successful calls of `p` are the entries `i` has of them
followed by those on their way to `i`. -/
theorem successes_eq {test : History n → Cluster n → Move n → Bool}
    (hup : ∀ es s l, test es s l = true → NoneDead l) (hr : Reach (holding test) s es)
    (p i : Fin n) :
    eventsOf success (historyAt p es) =
      eventsOf (entryFrom p) (historyAt i es) ++ pending s p i := by
  have howed := run_owed (reach_local hr p) i
  rw [howed, pending, ← List.append_assoc]
  congr 1
  unfold handedOver
  split
  · rename_i hi
    subst hi
    simp [(reach_recorded hr).1, learned]
  · rename_i hi
    have hlinks : ∀ es s (l : Move n), holding test es s l → l.1 = allUp :=
      fun es s l hok => (hup es s l hok).links
    rw [run_entries (reach_local hr i) (Ne.symm hi), ← learned_append,
      Process.fifo_exact hlinks hr]

end Algorep.Proofs
