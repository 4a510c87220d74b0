import Algorep.Proofs.AcceptorRounds
import Algorep.Proofs.PromisedRounds
import Algorep.Proofs.CountedAccepts
import Mathlib.Data.Fintype.Basic

namespace Algorep.Proofs
open Kit Program Program.Consensus

/-- The PROMISEs of round `r`. -/
def promiseOf (r : Int) (packet : Packet) : Bool :=
  match packet.message with
  | .promise _ roundId _ => roundId == r
  | _ => false

theorem promiseOf_reply {packet : Packet} (h : isReply packet.message = false) (r : Int) :
    promiseOf r packet = false := by
  obtain ⟨message,call⟩ := packet
  cases message with
  | promise | accept => contradiction
  | _ => rfl

/-- A node sends a PROMISE of a round each time it binds itself to the round. -/
theorem run_promises (hr : LocalRun (process n) (Foreign i) i s h) (r : Int) :
    (targetsOf (promiseOf r) h).length = (promisedIds h).count r := by
  induction hr with
  | start => rfl
  | @act s h a out hr _ ho ih =>
    have hquiet : targetsOf (promiseOf r) out.trace = [] := by
      rw [targetsOf_trace]
      cases hs : out.send with
      | none => rfl
      | some p =>
        have hm := acts_send_no_reply (run_recorded hr).current (acts_of_act ho) hs
        simp [promiseOf_reply hm]
    rw [targetsOf_append, hquiet, List.append_nil, ih]
    cases acts_of_act ho
    all_goals simp [promisedIds, Outcome.trace]
  | @handle s h src m o out _ _ ho ih =>
    rw [targetsOf_append, List.length_append, ih, targetsOf_received, targetsOf_trace]
    cases (handles_of_handle ho).2 with
    | promised pid hm hid =>
      by_cases he : pid = r <;> simp [promisedIds, Outcome.trace, promiseOf, he]
    | accepted pid roundId value hm hid => simp [promisedIds, Outcome.trace, promiseOf]
    | _ => simp [promisedIds, Outcome.trace]

theorem promiseOf_iff {packet : Packet} : promiseOf r packet = true ↔
    ∃ pid accepted, packet = ⟨.promise pid r accepted,packet.call⟩ := by
  obtain ⟨message,call⟩ := packet
  cases message with
  | promise pid roundId accepted => simp [promiseOf]
  | _ => simp [promiseOf]

/-- Every PROMISE answers a PREPARE of the node it is for. -/
theorem promise_received_nonneg {ok : Guard n} (hr : Reach ok s es)
    (hm : .received q ⟨.promise pid r accepted,c⟩ ∈ historyAt p es) : 0 ≤ r := by
  have hpromised : .did (.promised p c r) ∈ historyAt q es :=
    run_sourced (reach_local hr q) (Process.received_was_sent hr hm)
  have hprepare := run_prompted (reach_local hr q) hpromised
  obtain ⟨v,hcalled⟩ := run_sourced (reach_local hr p) (Process.received_was_sent hr hprepare)
  exact run_called_nonneg (reach_local hr p) hcalled

theorem no_blank_promise {ok : Guard n} (hr : Reach ok s es) (p : Fin n) :
    sendersOf (promiseOf (-1)) (historyAt p es) = [] := by
  refine List.eq_nil_iff_forall_not_mem.mpr ?_
  intro q hq
  obtain ⟨packet,hf,hm⟩ := mem_sendersOf.mp hq
  obtain ⟨pid,accepted,he⟩ := promiseOf_iff.mp hf
  have hpos := promise_received_nonneg hr (he ▸ hm)
  omega

/-- The PROMISEs of a round that a node receives come from different other nodes. -/
theorem promisers_count_le {ok : Guard n} (hr : Reach ok s es) (p : Fin n) (r : Int) (q : Fin n) :
    (sendersOf (promiseOf r) (historyAt p es)).count q ≤ 1 :=
  calc (sendersOf (promiseOf r) (historyAt p es)).count q
      ≤ (targetsOf (promiseOf r) (historyAt q es)).count p := Process.count_senders_le hr _ q p
    _ ≤ (targetsOf (promiseOf r) (historyAt q es)).length := List.count_le_length
    _ = (promisedIds (historyAt q es)).count r := run_promises (reach_local hr q) r
    _ ≤ 1 := List.nodup_iff_count_le_one.mp
        ((promisedIds_increasing (reach_local hr q)).imp Int.ne_of_lt) r

theorem run_foreign (hr : LocalRun (process n) (Foreign i) i s h) (hm : .received src m ∈ h) :
    src ≠ i := by
  induction hr with
  | start => simp at hm
  | act _ _ _ ih =>
    rcases List.mem_append.mp hm with hm | hm
    · exact ih hm
    · simp [Outcome.trace] at hm
  | handle _ hok _ ih =>
    rcases List.mem_append.mp hm with hm | hm
    · exact ih hm
    · rcases List.mem_cons.mp hm with he | hm
      · cases he
        exact hok
      · simp [Outcome.trace] at hm

/-- What the promise count of a node stands for. -/
structure CountedPromises (s : Node n) (h : List (Obs (Fin n) Packet (Event n))) : Prop where
  idle : s.thread = .idle → s.context.roundId = -1
  counted : s.context.promiseCount ≤ (sendersOf (promiseOf s.context.roundId) h).length
  own : s.thread ≠ .idle → ∃ v r, .did (.called s.calls v r) ∈ h ∧
    (s.context.roundId = -1 ∨ s.context.roundId = r)
  sampled : ∀ c, .did (.promisesSampled c true) ∈ h → ∃ v r, .did (.called c v r) ∈ h ∧
    (n - 1) / 2 ≤ (sendersOf (promiseOf r) h).length

theorem CountedPromises.extend {s s' : Node n} {h h' : List (Obs (Fin n) Packet (Event n))}
    (hs : CountedPromises s h) (hi : s'.thread = .idle → s'.context.roundId = -1)
    (hc : s'.context.promiseCount ≤
      (sendersOf (promiseOf s'.context.roundId) (h ++ h')).length)
    (ho : s'.thread ≠ .idle → ∃ v r, .did (.called s'.calls v r) ∈ h ++ h' ∧
      (s'.context.roundId = -1 ∨ s'.context.roundId = r))
    (hn : ∀ c, .did (.promisesSampled c true) ∈ h' → ∃ v r, .did (.called c v r) ∈ h ∧
      (n - 1) / 2 ≤ (sendersOf (promiseOf r) h).length) : CountedPromises s' (h ++ h') := by
  refine ⟨hi,hc,ho,?_⟩
  intro c hm
  have hold : ∃ v r, .did (.called c v r) ∈ h ∧
      (n - 1) / 2 ≤ (sendersOf (promiseOf r) h).length := by
    rcases List.mem_append.mp hm with hm | hm
    · exact hs.sampled c hm
    · exact hn c hm
  obtain ⟨v,r,hcalled,hle⟩ := hold
  refine ⟨v,r,List.mem_append_left _ hcalled,?_⟩
  rw [sendersOf_append, List.length_append]
  omega

/-- A step that leaves the call, its round and the count as they are. -/
theorem CountedPromises.keep {s s' : Node n} {h h' : List (Obs (Fin n) Packet (Event n))}
    (hs : CountedPromises s h) (hr : s'.context.roundId = s.context.roundId)
    (hc : s'.context.promiseCount = s.context.promiseCount) (hcalls : s'.calls = s.calls)
    (ht : s'.thread = .idle ↔ s.thread = .idle)
    (hn : ∀ c, .did (.promisesSampled c true) ∉ h') : CountedPromises s' (h ++ h') := by
  refine hs.extend (fun hi => hr ▸ hs.idle (ht.mp hi)) ?_ ?_ (fun c hm => absurd hm (hn c))
  · have hle := hs.counted
    rw [hr, hc, sendersOf_append, List.length_append]
    omega
  · intro hb
    obtain ⟨v,r,hcalled,hround⟩ := hs.own (fun hi => hb (ht.mpr hi))
    rw [hcalls, hr]
    exact ⟨v,r,List.mem_append_left _ hcalled,hround⟩

theorem acts_countedPromises {s : Node n} (hs : CountedPromises s h)
    (hblank : sendersOf (promiseOf (-1)) h = []) (ha : Acts rank s a out) :
    CountedPromises out.state (h ++ out.trace) := by
  have hend := acts_idle ha
  cases ha with
  | called value now ht =>
    have hzero : s.context.promiseCount = 0 := by
      have hle := hs.counted
      rw [hs.idle ht, hblank] at hle
      simpa using hle
    refine hs.extend (by simp) (by simp [hzero]) ?_ (by simp [Outcome.trace])
    intro _
    exact ⟨value,_,List.mem_append_right _ List.mem_cons_self,.inr rfl⟩
  | promisesSampled value m ht =>
    have hbusy : s.thread ≠ .idle := by simp [ht]
    obtain ⟨v,r,hcalled,hround⟩ := hs.own hbusy
    refine hs.extend ?_ (by simpa using hs.counted) ?_ ?_
    · intro hidle
      exact absurd (hend hidle) (by simp [ht])
    · intro _
      exact ⟨v,r,List.mem_append_left _ hcalled,hround⟩
    · intro c hm
      simp only [Outcome.trace, List.map_cons, List.map_nil, Option.map_none, Option.toList_none,
        List.append_nil, List.mem_singleton, Obs.did.injEq, Event.promisesSampled.injEq] at hm
      obtain ⟨rfl,hpass⟩ := hm
      have hge : (n - 1) / 2 ≤ s.context.promiseCount := by
        simpa [receivePromises] using hpass.symm
      have hle := hs.counted
      refine ⟨v,r,hcalled,?_⟩
      -- a context that was reset in mid-round has counted nothing since
      rcases hround with hround | hround
      · rw [hround, hblank, List.length_nil] at hle
        omega
      · rw [hround] at hle
        omega
  | returned b ht => exact hs.extend (fun _ => rfl) (Nat.zero_le _) (by simp) (by simp [Outcome.trace])
  | reset hb =>
    refine hs.extend (fun _ => rfl) (Nat.zero_le _) ?_ (by simp [Outcome.trace])
    intro hbusy
    obtain ⟨v,r,hcalled,-⟩ := hs.own hbusy
    exact ⟨v,r,List.mem_append_left _ hcalled,.inl rfl⟩
  | acceptsSampled value m ht =>
    refine hs.keep rfl rfl rfl ?_ (by simp [Outcome.trace])
    rw [ht]
    dsimp only
    split <;> simp
  | _ => exact hs.keep rfl rfl rfl (by simp [*]) (by simp [Outcome.trace])

theorem handlePromise_promiseCount (roundId : Int) (accepted : Option (Int × String))
    (context : Context) : (handlePromiseMessage roundId accepted context).promiseCount =
      context.promiseCount + if roundId = context.roundId then 1 else 0 := by
  simp only [handlePromiseMessage]
  split
  · split <;> rfl
  · rfl

theorem handles_countedPromises {rank : Fin n} (hs : CountedPromises s h)
    (ha : Handles rank s src packet now out) :
    CountedPromises out.state (h ++ .received src packet::out.trace) := by
  cases ha with
  | countedPromise pid roundId accepted hm =>
    refine hs.extend ?_ ?_ ?_ (by simp [Outcome.trace])
    · intro hidle
      simpa using hs.idle hidle
    · have hle := hs.counted
      rw [handlePromise_promiseCount, handlePromise_roundId, sendersOf_append, List.length_append]
      by_cases he : roundId = s.context.roundId
      · simp [promiseOf, hm, he]
        omega
      · simp [he]
        omega
    · intro hbusy
      obtain ⟨v,r,hcalled,hround⟩ := hs.own hbusy
      rw [handlePromise_roundId]
      exact ⟨v,r,List.mem_append_left _ hcalled,hround⟩
  | _ => exact hs.keep rfl rfl rfl Iff.rfl (by simp [Outcome.trace])

theorem run_countedPromises (hr : LocalRun (process n) ok i s h)
    (hblank : sendersOf (promiseOf (-1)) h = []) : CountedPromises s h := by
  induction hr with
  | start => exact ⟨fun _ => rfl,Nat.zero_le _,fun hb => absurd rfl hb,by simp⟩
  | act _ _ ho ih =>
    rw [sendersOf_append, List.append_eq_nil_iff] at hblank
    exact acts_countedPromises (ih hblank.1) hblank.1 (acts_of_act ho)
  | handle _ _ ho ih =>
    rw [sendersOf_append, List.append_eq_nil_iff] at hblank
    exact handles_countedPromises (ih hblank.1) (handles_of_handle ho).2

/-- The nodes other than `p` that have sent `p` a PROMISE of round `r`. -/
def promisers (es : History n) (p : Fin n) (r : Int) : Finset (Fin n) :=
  Finset.univ.filter (fun q => q ≠ p ∧ (sentTo p (historyAt q es)).any (promiseOf r) = true)

theorem received_le_promisers {ok : Guard n} (hr : Reach ok s es) (p : Fin n) (r : Int) :
    (sendersOf (promiseOf r) (historyAt p es)).length ≤ (promisers es p r).card := by
  have hnodup : (sendersOf (promiseOf r) (historyAt p es)).Nodup :=
    List.nodup_iff_count_le_one.mpr (promisers_count_le hr p r)
  rw [← List.toFinset_card_of_nodup hnodup]
  refine Finset.card_le_card ?_
  intro q hq
  obtain ⟨packet,hf,hm⟩ := mem_sendersOf.mp (List.mem_toFinset.mp hq)
  simp only [promisers, Finset.mem_filter, Finset.mem_univ, true_and, List.any_eq_true]
  exact ⟨run_foreign (reach_local hr p) hm,packet,mem_sentTo.mpr (Process.received_was_sent hr hm),hf⟩

/-- The promise count never exceeds the number of distinct other nodes that promised
the round, and a passed promise check has a majority of them behind its own round. -/
theorem promises_not_overcounted {ok : Guard n} (hr : Reach ok s es) (p : Fin n) :
    (0 ≤ (s.nodes p).context.roundId → (s.nodes p).context.promiseCount ≤
      (promisers es p (s.nodes p).context.roundId).card) ∧
    ∀ c, .did (.promisesSampled c true) ∈ historyAt p es → ∃ v r,
      .did (.called c v r) ∈ historyAt p es ∧ (n - 1) / 2 ≤ (promisers es p r).card := by
  have hcounted := run_countedPromises (reach_local hr p) (no_blank_promise hr p)
  constructor
  · intro _
    exact Nat.le_trans hcounted.counted (received_le_promisers hr p _)
  · intro c hm
    obtain ⟨v,r,hcalled,hle⟩ := hcounted.sampled c hm
    exact ⟨v,r,hcalled,Nat.le_trans hle (received_le_promisers hr p r)⟩

/-- Two PREPAREs collide, and the second proposer still counts one promise. -/
theorem sameSecond_samples : outcome (n := 3) anyMove (sameSecond 0 1 2) (fun r =>
    ((r.1.nodes 1).context.roundId,
      decide (.did (.promisesSampled 1 true) ∈ historyAt 1 r.2))) = some (10,true) := by
  decide

theorem promises_not_overcounted_sameSecond : ∃ (s : Cluster 3) (es : History 3),
    Reach Machine.free s es ∧
    (s.nodes 1).context.promiseCount ≤ (promisers es 1 (s.nodes 1).context.roundId).card ∧
    ∃ v r, .did (.called 1 v r) ∈ historyAt 1 es ∧ (3 - 1) / 2 ≤ (promisers es 1 r).card := by
  obtain ⟨s,es,hr,h⟩ := Machine.exists_reach (fun _ _ _ _ => trivial) sameSecond_samples
  simp only [Prod.mk.injEq, decide_eq_true_eq] at h
  obtain ⟨hcount,hsampled⟩ := promises_not_overcounted hr 1
  exact ⟨s,es,hr,hcount (by omega),hsampled 1 h.2⟩

end Algorep.Proofs
