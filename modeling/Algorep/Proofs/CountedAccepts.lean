import Algorep.Kit.Counting
import Algorep.Proofs.Provenance
import Mathlib.Data.Finset.Card

namespace Algorep.Proofs
open Kit Program Program.Consensus

def isAccept : Message → Bool
  | .accept _ _ => true
  | _ => false

def isPropose : Message → Bool
  | .propose _ _ _ => true
  | _ => false

/-- The ACCEPTs that answer call `c`. -/
def acceptOf (c : Nat) (packet : Packet) : Bool := isAccept packet.message && packet.call == c

/-- The PROPOSEs of call `c`. -/
def proposeOf (c : Nat) (packet : Packet) : Bool := isPropose packet.message && packet.call == c

/-- The nodes call `c` may still send a PROPOSE to. -/
def unproposed (rank : Fin n) (node : Node n) (c : Nat) : List (Fin n) :=
  if c < node.calls then []
  else if c = node.calls then
    match node.thread with
    | .prepare _ _ _ | .majorityPromised _ => others rank
    | .propose _ _ rest => rest
    | _ => []
  else others rank

/-- A call proposes to each other node once at most. -/
def ProposedOnce (rank : Fin n) (node : Node n) (h : List (Obs (Fin n) Packet (Event n))) : Prop :=
  ∀ c, (targetsOf (proposeOf c) h ++ unproposed rank node c).Sublist (others rank)

theorem ProposedOnce.keep (hs : ProposedOnce rank node h)
    (hn : ∀ c, targetsOf (proposeOf c) h' = [])
    (hu : ∀ c, (unproposed rank node' c).Sublist (unproposed rank node c)) :
    ProposedOnce rank node' (h ++ h') := by
  intro c
  rw [targetsOf_append, hn, List.append_nil]
  exact ((List.Sublist.refl _).append (hu c)).trans (hs c)

theorem unproposed_thread (hc : node'.calls = node.calls)
    (ht : (unproposed rank node' node.calls).Sublist (unproposed rank node node.calls)) (c : Nat) :
    (unproposed rank node' c).Sublist (unproposed rank node c) := by
  rcases Nat.lt_trichotomy c node.calls with hlt | rfl | hgt
  · simp [unproposed, hc, hlt]
  · exact ht
  · simp [unproposed, hc, Nat.lt_asymm hgt, Nat.ne_of_gt hgt]

theorem acts_proposedOnce {rank : Fin n} (hcur : Told rank node.calls node.thread es)
    (hs : ProposedOnce rank node h) (ha : Acts rank node a out) :
    ProposedOnce rank out.state (h ++ out.trace) := by
  have hn : out.send = none → ∀ c, targetsOf (proposeOf c) out.trace = [] := by
    intro hsend c
    rw [targetsOf_trace, hsend]
    rfl
  cases ha with
  | called value now ht =>
    refine hs.keep (hn rfl) ?_
    intro c
    rcases Nat.lt_trichotomy c (node.calls + 1) with hlt | rfl | hgt
    · simp [unproposed, hlt]
    · simp [unproposed, show ¬ node.calls + 1 < node.calls by omega]
    · simp [unproposed, show ¬ c < node.calls by omega, show c ≠ node.calls by omega,
        Nat.lt_asymm hgt, Nat.ne_of_gt hgt]
  | sentPrepare value m dst rest ht =>
    rw [ht] at hcur
    cases hcur with
    | prepare hsuf =>
      refine hs.keep ?_ (unproposed_thread rfl (by simp [unproposed, ht]))
      intro c
      rw [targetsOf_trace]
      rfl
  | sentPropose value m dst rest ht =>
    rw [ht] at hcur
    cases hcur with
    | propose context hsuf =>
      intro c
      have hc := hs c
      rw [targetsOf_append, targetsOf_trace]
      rcases Nat.lt_trichotomy c node.calls with hlt | rfl | hgt
      · simpa [unproposed, hlt, proposeOf, Nat.ne_of_gt hlt] using hc
      · simpa [unproposed, ht, proposeOf, isPropose] using hc
      · simpa [unproposed, Nat.lt_asymm hgt, Nat.ne_of_gt hgt, Nat.ne_of_lt hgt, proposeOf] using hc
  | sentAccepted value m dst rest ht =>
    rw [ht] at hcur
    cases hcur with
    | announced context hsuf =>
      refine hs.keep ?_ (unproposed_thread rfl (by simp [unproposed, ht]))
      intro c
      rw [targetsOf_trace]
      rfl
  | promisesSampled value m ht =>
    refine hs.keep (hn rfl) (unproposed_thread rfl ?_)
    cases receivePromises n node.context <;> simp [unproposed, ht]
  | acceptsSampled value m ht =>
    refine hs.keep (hn rfl) (unproposed_thread rfl ?_)
    cases receiveAccepts n node.context <;> simp [unproposed]
  | proposed value now ht | appended value ht | announced value now ht | reached value m ht
  | returned b ht => exact hs.keep (hn rfl) (unproposed_thread rfl (by simp [unproposed, ht]))
  | reset hb => exact hs.keep (hn rfl) (fun _ => List.Sublist.refl _)

theorem handles_proposedOnce {rank : Fin n} (hs : ProposedOnce rank node h)
    (ha : Handles rank node src packet now out) :
    ProposedOnce rank out.state (h ++ .received src packet::out.trace) := by
  cases ha
  all_goals
    refine hs.keep ?_ (fun _ => List.Sublist.refl _)
    intro c
    rw [targetsOf_received, targetsOf_trace]
    rfl

theorem run_proposedOnce (hr : LocalRun (process n) (Foreign i) i s h) : ProposedOnce i s h := by
  induction hr with
  | start =>
    intro c
    cases c <;> simp [unproposed, process]
  | act hr _ ho ih => exact acts_proposedOnce (run_recorded hr).current ih (acts_of_act ho)
  | handle _ _ ho ih => exact handles_proposedOnce ih (handles_of_handle ho).2

theorem acceptOf_reply {packet : Packet} (h : isReply packet.message = false) (c : Nat) :
    acceptOf c packet = false := by
  obtain ⟨message,call⟩ := packet
  cases message with
  | promise | accept => contradiction
  | _ => rfl

/-- A node sends the ACCEPTs of a call in answer to PROPOSEs of that call. -/
theorem run_answers (hr : LocalRun (process n) (Foreign i) i s h) (c : Nat) :
    (targetsOf (acceptOf c) h).Sublist (sendersOf (proposeOf c) h) := by
  induction hr with
  | start => exact List.Sublist.refl _
  | @act s h a out hr _ ho ih =>
    rw [targetsOf_append, sendersOf_append, sendersOf_trace, List.append_nil, targetsOf_trace]
    cases hs : out.send with
    | none => simpa using ih
    | some p =>
      have hm := acts_send_no_reply (run_recorded hr).current (acts_of_act ho) hs
      simpa [acceptOf_reply hm] using ih
  | @handle s h src m o out _ _ ho ih =>
    rw [targetsOf_append, sendersOf_append, targetsOf_received, sendersOf_received,
      sendersOf_trace, List.append_nil, targetsOf_trace]
    cases (handles_of_handle ho).2 with
    | accepted pid roundId value hm hid =>
      refine ih.append ?_
      by_cases hcall : m.call = c <;> simp [acceptOf, proposeOf, isAccept, isPropose, hm, hcall]
    | promised pid hm hid =>
      simpa [acceptOf, isAccept] using ih.trans (List.sublist_append_left _ _)
    | _ => simpa using ih.trans (List.sublist_append_left _ _)

/-- The ACCEPTs a call receives come from different other nodes. -/
theorem accepters_count_le {ok : Guard n} (hr : Reach ok s es) (p : Fin n) (c : Nat) (i : Fin n) :
    (sendersOf (acceptOf c) (historyAt p es)).count i ≤ (others p).count i :=
  calc (sendersOf (acceptOf c) (historyAt p es)).count i
      ≤ (targetsOf (acceptOf c) (historyAt i es)).count p := Process.count_senders_le hr _ i p
    _ ≤ (sendersOf (proposeOf c) (historyAt i es)).count p :=
        (run_answers (reach_local hr i) c).count_le p
    _ ≤ (targetsOf (proposeOf c) (historyAt p es)).count i := Process.count_senders_le hr _ p i
    _ ≤ (others p).count i :=
        ((List.sublist_append_left _ _).trans (run_proposedOnce (reach_local hr p) c)).count_le i

/-- An ACCEPT only meets the call it answers, and only before the call returns. -/
def CurrentAccepts (s : Node n) : Input (Fin n) Action Nat Packet → Prop
  | .act _ => True
  | .handle _ packet _ =>
    isAccept packet.message = true → packet.call = s.calls ∧ s.thread ≠ .idle

/-- What the count of a node stands for. -/
structure Counted (s : Node n) (h : List (Obs (Fin n) Packet (Event n))) : Prop where
  idle : s.thread = .idle → s.context.acceptCount = 0
  running : s.context.acceptCount ≤ (sendersOf (acceptOf s.calls) h).length
  sampled : ∀ c v, .did (.acceptsSampled c v true) ∈ h →
    (n - 1) / 2 ≤ (sendersOf (acceptOf c) h).length

theorem Counted.extend {s s' : Node n} {h h' : List (Obs (Fin n) Packet (Event n))} (hs : Counted s h)
    (hi : s'.thread = .idle → s'.context.acceptCount = 0)
    (hr : s'.context.acceptCount ≤ (sendersOf (acceptOf s'.calls) (h ++ h')).length)
    (hn : ∀ c v, .did (.acceptsSampled c v true) ∈ h' →
      (n - 1) / 2 ≤ (sendersOf (acceptOf c) h).length) : Counted s' (h ++ h') := by
  refine ⟨hi,hr,?_⟩
  intro c v hm
  have hle : (n - 1) / 2 ≤ (sendersOf (acceptOf c) h).length := by
    rcases List.mem_append.mp hm with hm | hm
    · exact hs.sampled c v hm
    · exact hn c v hm
  rw [sendersOf_append, List.length_append]
  omega

theorem acts_counted {s : Node n} (hs : Counted s h) (ha : Acts rank s a out) :
    Counted out.state (h ++ out.trace) := by
  have hrun : s.context.acceptCount ≤
      (sendersOf (acceptOf s.calls) (h ++ out.trace)).length := by
    simpa using hs.running
  have hend := acts_idle ha
  cases ha with
  | called value now ht =>
    refine hs.extend (by simp) ?_ (by simp [Outcome.trace])
    have hz := hs.idle ht
    exact Nat.le_trans (Nat.le_of_eq hz) (Nat.zero_le _)
  | acceptsSampled value m ht =>
    refine hs.extend ?_ hrun ?_
    · intro hidle
      exact absurd (hend hidle) (by simp [ht])
    · intro c v hm
      simp only [Outcome.trace, List.map_cons, List.map_nil, Option.map_none, Option.toList_none,
        List.append_nil, List.mem_singleton, Obs.did.injEq, Event.acceptsSampled.injEq] at hm
      obtain ⟨rfl,_,hpass⟩ := hm
      have hge : (n - 1) / 2 ≤ s.context.acceptCount := by
        simpa [receiveAccepts] using hpass.symm
      exact Nat.le_trans hge hs.running
  | promisesSampled value m ht =>
    refine hs.extend ?_ hrun (by simp [Outcome.trace])
    intro hidle
    exact absurd (hend hidle) (by simp [ht])
  | returned b ht => exact hs.extend (fun _ => rfl) (Nat.zero_le _) (by simp [Outcome.trace])
  | reset hb => exact hs.extend (fun _ => rfl) (Nat.zero_le _) (by simp [Outcome.trace])
  | _ => exact hs.extend (by simp) hrun (by simp [Outcome.trace])

@[simp] theorem handlePromise_acceptCount (roundId : Int) (accepted : Option (Int × String))
    (context : Context) :
    (handlePromiseMessage roundId accepted context).acceptCount = context.acceptCount := by
  simp only [handlePromiseMessage]
  split
  · split <;> rfl
  · rfl

theorem handles_counted {rank : Fin n} (hs : Counted s h)
    (hok : CurrentAccepts s (.handle src packet now)) (ha : Handles rank s src packet now out) :
    Counted out.state (h ++ .received src packet::out.trace) := by
  have hrun : s.context.acceptCount ≤
      (sendersOf (acceptOf s.calls) (h ++ .received src packet::out.trace)).length := by
    have hle := hs.running
    rw [sendersOf_append, List.length_append]
    omega
  cases ha with
  | countedAccept pid roundId hm =>
    obtain ⟨hcall,hbusy⟩ := hok (by rw [hm]; rfl)
    refine hs.extend (fun hidle => absurd hidle hbusy) ?_ (by simp [Outcome.trace])
    have hle := hs.running
    simpa [handleAcceptMessage, acceptOf, hm, isAccept, hcall] using hle
  | countedPromise pid roundId accepted hm =>
    refine hs.extend ?_ (by simpa using hrun) (by simp [Outcome.trace])
    intro hidle
    simpa using hs.idle hidle
  | _ => exact hs.extend hs.idle hrun (by simp [Outcome.trace])

theorem run_counted (hr : LocalRun (process n) CurrentAccepts i s h) : Counted s h := by
  induction hr with
  | start => exact ⟨fun _ => rfl,Nat.zero_le _,by simp⟩
  | act _ _ ho ih => exact acts_counted ih (acts_of_act ho)
  | handle _ hok ho ih => exact handles_counted ih hok (handles_of_handle ho).2

/-- An ACCEPT is handled only while the `startConsensus` call whose PROPOSE it
answers is in progress. -/
def currentAccepts (_ : History n) (s : Cluster n) (l : Move n) : Bool :=
  match l.2 with
  | .deliver src dst _ => !l.1 dst src || (s.chan src dst).head?.all (fun m =>
      !isAccept m.message || (m.call == (s.nodes dst).calls && (s.nodes dst).thread != .idle))
  | _ => true

theorem currentAccepts_local (i : Fin n) :
    Process.Respects (holding currentAccepts) i CurrentAccepts := by
  refine ⟨fun _ _ _ _ _ => trivial,?_⟩
  intro es s up src o m rest hok hc hu hm
  simpa [holding, currentAccepts, hc, hu, hm] using hok

/-- Node `i` has accepted the PROPOSE of call `c` of `p`. -/
def Voted (es : History n) (p : Fin n) (c : Nat) (i : Fin n) : Prop :=
  ∃ roundId value, .did (.accepted p c roundId value) ∈ historyAt i es

/-- While no ACCEPT outlives the call it answers, a passed accept check of call
`c` of `p` has behind it that many nodes other than `p` that accepted the PROPOSE
of this very call. -/
theorem accepts_of_this_round (hr : Reach (n := n) (holding currentAccepts) s es)
    (hm : .did (.acceptsSampled c v true) ∈ historyAt p es) :
    ∃ voters : Finset (Fin n), (n - 1) / 2 ≤ voters.card ∧ p ∉ voters ∧
      ∀ i ∈ voters, Voted es p c i := by
  have hcount := (run_counted (Process.local_run (currentAccepts_local p) hr)).sampled c v hm
  have hamong := accepters_count_le hr p c
  refine ⟨(sendersOf (acceptOf c) (historyAt p es)).toFinset,?_,?_,?_⟩
  · have hnodup : (sendersOf (acceptOf c) (historyAt p es)).Nodup := by
      rw [List.nodup_iff_count_le_one]
      intro i
      exact Nat.le_trans (hamong i) (List.nodup_iff_count_le_one.mp (others_nodup p) i)
    rwa [List.toFinset_card_of_nodup hnodup]
  · intro hp
    have hpos := List.count_pos_iff.mpr (List.mem_toFinset.mp hp)
    have hself := List.count_pos_iff.mp (Nat.lt_of_lt_of_le hpos (hamong p))
    exact mem_others.mp hself rfl
  · intro i hi
    obtain ⟨packet,hf,hreceived⟩ := mem_sendersOf.mp (List.mem_toFinset.mp hi)
    have hsourced := run_sourced (reach_local hr i) (Process.received_was_sent hr hreceived)
    obtain ⟨message,call⟩ := packet
    cases message with
    | accept pid roundId =>
      have hcall : call = c := by simpa [acceptOf, isAccept] using hf
      exact hcall ▸ hsourced
    | _ => simp [acceptOf, isAccept] at hf

/-- One round of `p`, promised and accepted by `r`. -/
def oneRound (p r : Fin n) : List (Move n) :=
  [.call p "a" 10,.proceed p 10,.proceed p 10,.deliver p r 10,.deliver r p 10,.proceed p 15,
    .proceed p 15,.proceed p 15,.proceed p 15,.deliver p r 15,.deliver r p 15,.proceed p 20]

theorem oneRound_samples : outcome (n := 3) currentAccepts (oneRound 0 2) (fun r =>
    decide (.did (.acceptsSampled 1 "a" true) ∈ historyAt 0 r.2)) = some true := by
  decide

theorem accepts_of_this_round_oneRound : ∃ (s : Cluster 3) (es : History 3),
    Reach (holding currentAccepts) s es ∧ ∃ voters : Finset (Fin 3), (3 - 1) / 2 ≤ voters.card ∧
      0 ∉ voters ∧ ∀ i ∈ voters, Voted es 0 1 i := by
  obtain ⟨s,es,hr,h⟩ := Machine.exists_reach (fun _ _ _ h => h) oneRound_samples
  exact ⟨s,es,hr,accepts_of_this_round hr (of_decide_eq_true h)⟩

/-- The first round of `p` gives up before `q` answers its PROPOSE. The ACCEPT
arrives in the second round, whose PROPOSE has reached nobody. -/
def lateAccept (p q : Fin n) : List (Move n) :=
  [.call p "a" 10,.proceed p 10,.proceed p 10,.deliver p q 10,.deliver q p 10,.proceed p 15,
    .proceed p 15,.proceed p 15,.proceed p 15,.proceed p 20,.proceed p 23,.deliver p q 23,
    .call p "b" 30,.proceed p 30,.proceed p 30,.deliver p q 30,.deliver q p 30,.deliver q p 30,
    .proceed p 35,.proceed p 35,.proceed p 35,.proceed p 35,.proceed p 40]

theorem lateAccept_samples : outcome (n := 3) anyMove (lateAccept 0 1) (fun r =>
    (decide (.did (.acceptsSampled 2 "b" true) ∈ historyAt 0 r.2),
      decide (∀ i, historyAt i r.2 = (historyAt i r.2).filter (fun o => match o with
        | .did (.accepted _ c _ _) => c != 2
        | _ => true)))) = some (true,true) := by
  decide

theorem accepts_of_another_round : ∃ (s : Cluster 3) (es : History 3),
    Reach Machine.free s es ∧ .did (.acceptsSampled 2 "b" true) ∈ historyAt 0 es ∧
    ¬ ∃ voters : Finset (Fin 3), (3 - 1) / 2 ≤ voters.card ∧ 0 ∉ voters ∧
      ∀ i ∈ voters, Voted es 0 2 i := by
  obtain ⟨s,es,hr,h⟩ := Machine.exists_reach (fun _ _ _ _ => trivial) lateAccept_samples
  simp only [Prod.mk.injEq, decide_eq_true_eq] at h
  refine ⟨s,es,hr,h.1,?_⟩
  rintro ⟨voters,hcard,_,hvoted⟩
  obtain ⟨i,hi⟩ := Finset.card_pos.mp (show 0 < voters.card by omega)
  obtain ⟨roundId,value,hm⟩ := hvoted i hi
  rw [h.2 i] at hm
  simp at hm

end Algorep.Proofs
