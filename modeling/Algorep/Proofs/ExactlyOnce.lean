import Algorep.Proofs.Deliveries
import Mathlib.Data.List.Nodup

namespace Algorep.Proofs
open Kit Program Program.Consensus

/-- A log entry, with its proposer and the number of its call. -/
def entry : Event n → Option (Fin n × Nat × String)
  | .appended src c v => some (src,c,v)
  | _ => none

def entries (h : List (Obs (Fin n) Packet (Event n))) : List (Fin n × Nat × String) :=
  eventsOf entry h

theorem eventsOf_entryFrom (p : Fin n) (h : List (Obs (Fin n) Packet (Event n))) :
    eventsOf (entryFrom p) h = ((entries h).filter (fun x => x.1 = p)).map Prod.snd := by
  induction h with
  | nil => rfl
  | cons o h ih =>
    have hcons : ∀ {β : Type} (f : Event n → Option β), eventsOf f (o::h) =
        eventsOf f [o] ++ eventsOf f h := fun f => eventsOf_append f [o] h
    rw [entries, hcons, hcons, ih, List.filter_append, List.map_append, entries]
    congr 1
    cases o with
    | did e =>
      cases e with
      | appended src c v =>
        by_cases hp : src = p <;> simp [eventsOf, entry, entryFrom, hp]
      | _ => rfl
    | sent _ _ | received _ _ => rfl

/-- The log holds the appended values, in order. -/
theorem run_log (hr : LocalRun (process n) ok i s h) :
    s.log = (entries h).map (fun x => x.2.2) := by
  induction hr with
  | start => rfl
  | act _ _ ho ih =>
    rw [entries, eventsOf_append, List.map_append, ← entries, ← ih, eventsOf_trace]
    cases acts_of_act ho
    all_goals simp [List.filterMap_cons, entry]
  | handle _ _ ho ih =>
    rw [entries, eventsOf_append, List.map_append, ← entries, ← ih, eventsOf_received,
      eventsOf_trace]
    cases (handles_of_handle ho).2
    all_goals simp [List.filterMap_cons, entry]

/-- The call in progress has not sampled its accepts yet. -/
def sampling : Thread n → Bool
  | .prepare _ _ _ | .majorityPromised _ | .propose _ _ _ => true
  | _ => false

/-- The successful calls of a node come in call order. -/
structure Successive (s : Node n) (h : List (Obs (Fin n) Packet (Event n))) : Prop where
  increasing : (eventsOf success h).Pairwise (fun x y => x.1 < y.1)
  started : ∀ x ∈ eventsOf success h, x.1 ≤ s.calls
  unsampled : sampling s.thread = true → ∀ x ∈ eventsOf success h, x.1 < s.calls

theorem Successive.keep {h h' : List (Obs (Fin n) Packet (Event n))} (hs : Successive s h)
    (hn : eventsOf success h' = []) (hc : s.calls ≤ s'.calls)
    (ht : sampling s'.thread = true → sampling s.thread = true ∨ s.calls < s'.calls) :
    Successive s' (h ++ h') := by
  have he : eventsOf success (h ++ h') = eventsOf success h := by
    rw [eventsOf_append, hn, List.append_nil]
  refine ⟨he ▸ hs.increasing,?_,?_⟩
  · intro x hx
    have hle := hs.started x (he ▸ hx)
    omega
  · intro hsamp x hx
    have hle := hs.started x (he ▸ hx)
    rcases ht hsamp with ht | ht
    · have hlt := hs.unsampled ht x (he ▸ hx)
      omega
    · omega

theorem acts_successive {s : Node n} (hs : Successive s h) (ha : Acts rank s a out) :
    Successive out.state (h ++ out.trace) := by
  cases ha with
  | called value now ht => exact hs.keep (by rw [eventsOf_trace]; rfl) (by simp) (by simp)
  | sentPrepare value m dst rest ht =>
    exact hs.keep (by rw [eventsOf_trace]; rfl) (Nat.le_refl _) (by simp [ht, sampling])
  | promisesSampled value m ht =>
    exact hs.keep (by rw [eventsOf_trace]; rfl) (Nat.le_refl _) (by simp [ht, sampling])
  | proposed value now ht =>
    exact hs.keep (by rw [eventsOf_trace]; rfl) (Nat.le_refl _) (by simp [ht, sampling])
  | sentPropose value m dst rest ht =>
    exact hs.keep (by rw [eventsOf_trace]; rfl) (Nat.le_refl _) (by simp [ht, sampling])
  | acceptsSampled value m ht =>
    have hlt := hs.unsampled (by simp [ht, sampling])
    cases hpass : receiveAccepts n s.context with
    | false =>
      refine hs.keep ?_ (Nat.le_refl _) ?_
      · rw [eventsOf_trace]
        simp [List.filterMap_cons, success]
      · simp [sampling]
    | true =>
      have hnew : ∀ out : Result n, out.events = [.acceptsSampled s.calls value true] →
          eventsOf success (h ++ out.trace) = eventsOf success h ++ [(s.calls,value)] := by
        intro out he
        rw [eventsOf_append, eventsOf_trace, he]
        rfl
      refine ⟨?_,?_,by simp [sampling]⟩
      · rw [hnew _ rfl]
        refine List.pairwise_append.mpr ⟨hs.increasing,List.pairwise_singleton _ _,?_⟩
        intro x hx y hy
        rw [List.mem_singleton.mp hy]
        exact hlt x hx
      · intro x hx
        rw [hnew _ rfl] at hx
        rcases List.mem_append.mp hx with hx | hx
        · exact hs.started x hx
        · rw [List.mem_singleton.mp hx]
  | appended | announced | sentAccepted | reached | returned =>
    exact hs.keep (by rw [eventsOf_trace]; rfl) (Nat.le_refl _) (by simp [sampling])
  | reset hb => exact hs.keep rfl (Nat.le_refl _) .inl

theorem run_successive (hr : LocalRun (process n) ok i s h) : Successive s h := by
  induction hr with
  | start => exact ⟨List.Pairwise.nil,by simp,by simp⟩
  | act _ _ ho ih => exact acts_successive ih (acts_of_act ho)
  | handle _ _ ho ih =>
    cases (handles_of_handle ho).2
    all_goals
      refine ih.keep ?_ (Nat.le_refl _) .inl
      rw [eventsOf_received, eventsOf_trace]
      rfl

/-- A passed accept check comes after the start of its call and a passed promise check. -/
theorem Told.passed {rank : Fin n} (ht : Told rank c thread es)
    (hm : .acceptsSampled c v true ∈ es) :
    (∃ pid, .called c v pid ∈ es) ∧ .promisesSampled c true ∈ es := by
  induction ht with
  | returned ht ih =>
    have hm' := (List.mem_append.mp hm).resolve_right (by simp)
    obtain ⟨⟨pid,hc⟩,hp⟩ := ih hm'
    exact ⟨⟨pid,List.mem_append_left _ hc⟩,List.mem_append_left _ hp⟩
  | _ => simp_all

theorem Recorded.passed {rank : Fin n} (hr : Recorded rank node h)
    (hm : .did (.acceptsSampled c v true) ∈ h) :
    (∃ pid, .did (.called c v pid) ∈ h) ∧ .did (.promisesSampled c true) ∈ h := by
  have hown : .acceptsSampled c v true ∈ ofCall rank c h := mem_ofCall hm rfl
  have hstory : ∃ thread, Told rank c thread (ofCall rank c h) := by
    rcases Nat.lt_trichotomy c node.calls with hlt | rfl | hgt
    · exact ⟨_,hr.past c hlt⟩
    · exact ⟨_,hr.current⟩
    · rw [hr.future c hgt] at hown
      contradiction
  obtain ⟨thread,ht⟩ := hstory
  obtain ⟨⟨pid,hc⟩,hp⟩ := ht.passed hown
  exact ⟨⟨pid,mem_of_ofCall hc⟩,mem_of_ofCall hp⟩

/-- An ACCEPTED of `p` is on its way to `i`. -/
def acceptedInFlight (s : Cluster n) (p i : Fin n) : Prop :=
  ∃ packet ∈ s.chan p i, ∃ pid roundId v, packet.message = .accepted pid roundId v

theorem learned_eq_nil (h : ¬ acceptedInFlight s p i) : learned (s.chan p i) = [] := by
  refine List.filterMap_eq_nil_iff.mpr ?_
  intro packet hm
  cases he : packet.message with
  | accepted pid roundId v => exact absurd ⟨packet,hm,pid,roundId,v,he⟩ h
  | _ => rfl

/-- What the log of `i` holds: one entry for each of its appends, each entry from
a call of its own that passed both checks with that value as its argument, and of
each `p` the values of its successful calls in call order, up to those still owed. -/
structure Delivered (s : Cluster n) (es : History n) (i : Fin n) : Prop where
  log : (s.nodes i).log = (entries (historyAt i es)).map (fun x => x.2.2)
  distinct : ((entries (historyAt i es)).map (fun x => (x.1,x.2.1))).Nodup
  called : ∀ p c v, (p,c,v) ∈ entries (historyAt i es) →
    (∃ pid, .did (.called c v pid) ∈ historyAt p es) ∧
      .did (.promisesSampled c true) ∈ historyAt p es ∧
      .did (.acceptsSampled c v true) ∈ historyAt p es
  callOrder : ∀ p, (eventsOf success (historyAt p es)).Pairwise (fun x y => x.1 < y.1)
  delivered : ∀ p, (eventsOf (entryFrom p) (historyAt i es)).map Prod.snd <+:
    (eventsOf success (historyAt p es)).map Prod.snd
  complete : ∀ p, (s.nodes p).thread = .idle → ¬ acceptedInFlight s p i →
    (eventsOf (entryFrom p) (historyAt i es)).map Prod.snd =
      (eventsOf success (historyAt p es)).map Prod.snd

theorem success_of_entry {test : History n → Cluster n → Move n → Bool}
    (hup : ∀ es s l, test es s l = true → NoneDead l) (hr : Reach (holding test) s es)
    (hm : (p,c,v) ∈ entries (historyAt i es)) : (c,v) ∈ eventsOf success (historyAt p es) := by
  rw [successes_eq hup hr p i, eventsOf_entryFrom]
  refine List.mem_append_left _ (List.mem_map.mpr ⟨(p,c,v),?_,rfl⟩)
  exact List.mem_filter.mpr ⟨hm,by simp⟩

theorem entries_distinct {test : History n → Cluster n → Move n → Bool}
    (hup : ∀ es s l, test es s l = true → NoneDead l) (hr : Reach (holding test) s es)
    (i : Fin n) : ((entries (historyAt i es)).map (fun x => (x.1,x.2.1))).Nodup := by
  refine List.pairwise_map.mpr (List.pairwise_iff_forall_sublist.mpr ?_)
  intro x y hxy he
  simp only [Prod.mk.injEq] at he
  -- both entries would stem from one proposer, whose calls increase along the log
  have hpair : ([x,y].filter (fun z => z.1 = x.1)).map Prod.snd = [x.2,y.2] := by
    simp [he.1]
  have hsub : [x.2,y.2].Sublist (eventsOf success (historyAt x.1 es)) := by
    rw [successes_eq hup hr x.1 i, eventsOf_entryFrom, ← hpair]
    exact ((hxy.filter _).map _).trans (List.sublist_append_left _ _)
  have hlt := List.pairwise_iff_forall_sublist.mp
    (run_successive (reach_local hr x.1)).increasing hsub
  omega

/-- With nobody dead, every log holds each proposer's successful calls in order
and exactly once. -/
theorem delivered_exactly_once (hr : Reach (n := n) (holding nobodyDead) s es) (i : Fin n) :
    Delivered s es i := by
  have hup : ∀ es s l, nobodyDead (n := n) es s l = true → NoneDead l :=
    fun _ _ _ h => of_decide_eq_true h
  refine ⟨run_log (reach_local hr i),entries_distinct hup hr i,?_,?_,?_,?_⟩
  · intro p c v hm
    obtain ⟨e,he,hs⟩ := mem_eventsOf.mp (success_of_entry hup hr hm)
    have hsampled : .did (.acceptsSampled c v true) ∈ historyAt p es := by
      cases e with
      | acceptsSampled c' v' b =>
        cases b with
        | true =>
          simp only [success, Option.some.injEq, Prod.mk.injEq] at hs
          exact hs.1 ▸ hs.2 ▸ he
        | false => contradiction
      | _ => contradiction
    obtain ⟨hcalled,hpromised⟩ := (run_recorded (reach_local hr p)).passed hsampled
    exact ⟨hcalled,hpromised,hsampled⟩
  · intro p
    exact (run_successive (reach_local hr p)).increasing
  · intro p
    rw [successes_eq hup hr p i]
    exact (List.prefix_append _ _).map _
  · intro p hidle hnone
    have hpending : pending s p i = [] := by
      rw [pending, learned_eq_nil hnone, unsent, hidle]
      rfl
    rw [successes_eq hup hr p i, hpending, List.append_nil]

/-- `p` gets "a" accepted by `r`, which then learns it. -/
def taught (p r : Fin n) : List (Move n) :=
  [.call p "a" 10,.proceed p 10,.proceed p 10,.deliver p r 10,.deliver r p 10,.proceed p 15,
    .proceed p 15,.proceed p 15,.proceed p 15,.deliver p r 15,.deliver r p 15,.proceed p 20,
    .proceed p 20,.proceed p 20,.proceed p 20,.proceed p 20,.deliver p r 20]

theorem taught_log : outcome (n := 3) nobodyDead (taught 0 2) (fun r => (r.1.nodes 2).log) =
    some ["a"] := by
  decide

theorem delivered_exactly_once_taught : ∃ (s : Cluster 3) (es : History 3),
    Reach (holding nobodyDead) s es ∧ (s.nodes 2).log = ["a"] ∧ Delivered s es 2 := by
  obtain ⟨s,es,hr,h⟩ := Machine.exists_reach (fun _ _ _ h => h) taught_log
  exact ⟨s,es,hr,h,delivered_exactly_once hr 2⟩

end Algorep.Proofs
