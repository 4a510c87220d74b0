import Algorep.Proofs.ConsensusSteps

namespace Algorep.Proofs
open Kit Program Program.Consensus

/-- The round a node bound itself to in an event, and whether by a promise. -/
def round : Obs (Fin n) Packet (Event n) → Option (Bool × Int)
  | .did (.promised _ _ roundId) => some (true,roundId)
  | .did (.accepted _ _ roundId _) => some (false,roundId)
  | _ => none

def rounds (h : List (Obs (Fin n) Packet (Event n))) : List (Bool × Int) := h.filterMap round

def promisedIds (h : List (Obs (Fin n) Packet (Event n))) : List Int :=
  h.filterMap (fun o => match o with
    | .did (.promised _ _ roundId) => some roundId
    | _ => none)

def acceptedIds (h : List (Obs (Fin n) Packet (Event n))) : List Int :=
  h.filterMap (fun o => match o with
    | .did (.accepted _ _ roundId _) => some roundId
    | _ => none)

/-- Later rounds are never smaller, and a promise is above all that came before. -/
def Follows (x y : Bool × Int) : Prop := x.2 ≤ y.2 ∧ (y.1 = true → x.2 < y.2)

/-- The watermark bounds every round so far, and the rounds are in order. -/
def Ordered (node : Node n) (h : List (Obs (Fin n) Packet (Event n))) : Prop :=
  (rounds h).Pairwise Follows ∧ ∀ x ∈ rounds h, x.2 ≤ node.maxRoundId

theorem rounds_append (h h' : List (Obs (Fin n) Packet (Event n))) :
    rounds (h ++ h') = rounds h ++ rounds h' :=
  List.filterMap_append

theorem Ordered.keep (hs : Ordered node h) (hr : rounds h' = [])
    (hm : node'.maxRoundId = node.maxRoundId) : Ordered node' (h ++ h') := by
  unfold Ordered at *
  rw [rounds_append, hr, List.append_nil, hm]
  exact hs

theorem Ordered.extend (hs : Ordered node h) (hr : rounds h' = [x])
    (hx : node.maxRoundId ≤ x.2 ∧ (x.1 = true → node.maxRoundId < x.2))
    (hm : node'.maxRoundId = x.2) : Ordered node' (h ++ h') := by
  have hfollows : ∀ y ∈ rounds h, Follows y x := by
    intro y hy
    have hle := hs.2 y hy
    exact ⟨Int.le_trans hle hx.1,fun ht => Int.lt_of_le_of_lt hle (hx.2 ht)⟩
  unfold Ordered
  rw [rounds_append, hr, hm]
  constructor
  · refine List.pairwise_append.mpr ⟨hs.1,List.pairwise_singleton _ _,?_⟩
    intro y hy z hz
    rw [List.mem_singleton.mp hz]
    exact hfollows y hy
  · intro y hy
    rcases List.mem_append.mp hy with hy | hy
    · exact (hfollows y hy).1
    · rw [List.mem_singleton.mp hy]

theorem acts_ordered (hs : Ordered node h) (ha : Acts rank node a out) :
    Ordered out.state (h ++ out.trace) := by
  cases ha
  all_goals exact hs.keep rfl rfl

/-- No branch of a handler lowers the watermark, and only the two branches that
pass its test leave a round behind. -/
theorem handles_ordered (hs : Ordered node h) (ha : Handles rank node src packet now out) :
    Ordered out.state (h ++ .received src packet::out.trace) := by
  cases ha with
  | promised id hm hid => exact hs.extend (x := (true,id)) rfl ⟨Int.le_of_lt hid,fun _ => hid⟩ rfl
  | accepted id roundId value hm hid =>
    exact hs.extend (x := (false,roundId)) rfl ⟨Int.le_of_eq hid.symm,by simp⟩ hid.symm
  | refusedPrepare | countedPromise | refusedPropose | countedAccept | learned =>
    exact hs.keep rfl rfl

theorem run_ordered (hr : LocalRun (process n) ok i s h) : Ordered s h := by
  induction hr with
  | start => exact ⟨List.Pairwise.nil,by simp [rounds]⟩
  | act _ _ ho ih => exact acts_ordered ih (acts_of_act ho)
  | handle _ _ ho ih => exact handles_ordered ih (handles_of_handle ho).2

theorem promisedIds_eq (h : List (Obs (Fin n) Packet (Event n))) :
    promisedIds h = (rounds h).filterMap (fun x => if x.1 then some x.2 else none) := by
  simp only [promisedIds, rounds, List.filterMap_filterMap]
  congr 1
  funext o
  cases o with
  | did e => cases e <;> rfl
  | sent _ _ | received _ _ => rfl

theorem acceptedIds_eq (h : List (Obs (Fin n) Packet (Event n))) :
    acceptedIds h = (rounds h).filterMap (fun x => if x.1 then none else some x.2) := by
  simp only [acceptedIds, rounds, List.filterMap_filterMap]
  congr 1
  funext o
  cases o with
  | did e => cases e <;> rfl
  | sent _ _ | received _ _ => rfl

theorem promisedIds_increasing (hr : LocalRun (process n) ok i s h) :
    (promisedIds h).Pairwise (· < ·) := by
  rw [promisedIds_eq, List.pairwise_filterMap]
  refine (run_ordered hr).1.imp ?_
  intro x y hxy a ha b hb
  have hy : y.1 = true := by
    by_contra hy
    simp [hy] at hb
  simp only [hy, ↓reduceIte, Option.some.injEq] at hb
  split at ha
  · simp only [Option.some.injEq] at ha
    subst a b
    exact hxy.2 hy
  · contradiction

/-- Against any messages from anybody, and across all resets of the context, a
node promises ever larger rounds, never accepts below an accepted round, and
never accepts below a promised one. -/
theorem acceptor_round_monotone (hr : LocalRun (process n) anyInput i s h) :
    (promisedIds h).Pairwise (· < ·) ∧ (acceptedIds h).Pairwise (· ≤ ·) ∧
    ∀ before after src call r, h = before ++ .did (.promised src call r)::after →
      ∀ r' ∈ acceptedIds after, r ≤ r' := by
  obtain ⟨hp,_⟩ := run_ordered hr
  refine ⟨promisedIds_increasing hr,?_,?_⟩
  · rw [acceptedIds_eq, List.pairwise_filterMap]
    refine hp.imp ?_
    intro x y hxy a ha b hb
    split at ha
    · contradiction
    · split at hb
      · contradiction
      · simp only [Option.some.injEq] at ha hb
        subst a b
        exact hxy.1
  · intro before after src call r he r' hr'
    rw [he, rounds_append] at hp
    have hlater := (List.pairwise_cons.mp (List.pairwise_append.mp hp).2.1).1
    rw [acceptedIds_eq] at hr'
    obtain ⟨x,hx,hxr⟩ := List.mem_filterMap.mp hr'
    split at hxr
    · contradiction
    · simp only [Option.some.injEq] at hxr
      exact hxr ▸ (hlater x hx).1

/-- Node 0 promises round 4 to node 1, refuses round 3 of node 2, accepts round 4,
forgets its context over an ACCEPTED, and promises round 9. -/
theorem acceptor_round_monotone_promises :
    ([4,9] : List Int).Pairwise (· < ·) ∧ ([4] : List Int).Pairwise (· ≤ ·) := by
  have h := acceptor_round_monotone (n := 3) (i := 0)
    (.handle (j := 2) (m := ⟨.prepare 9,2⟩) (o := 9) (.act (a := .resetContext)
      (.handle (j := 2) (m := ⟨.accepted 6 3 "b",1⟩) (o := 6)
        (.handle (j := 1) (m := ⟨.propose 5 4 "a",1⟩) (o := 5)
          (.handle (j := 2) (m := ⟨.prepare 3,1⟩) (o := 4)
            (.handle (j := 1) (m := ⟨.prepare 4,1⟩) (o := 4) .start trivial rfl)
            trivial rfl) trivial rfl) trivial rfl) trivial rfl) trivial rfl)
  exact ⟨h.1,h.2.1⟩

end Algorep.Proofs
