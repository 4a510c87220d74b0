import Algorep.Kit.Counting
import Algorep.Proofs.HostedConsensus
import Mathlib.Data.List.Induction
import Mathlib.Data.List.Perm.Subperm

namespace Algorep.Proofs
open Kit Program Program.Server

/-! While no node is taken for dead, every log has what has been answered and nothing but what
has been requested, each request once. -/

/-- The command that a step of a server starts to replicate. -/
def requestsOf (_ : Server.Node n) : Server.Action n → List String
  | .replicate value _ => [value]
  | _ => []

/-- The commands a server has been asked to replicate, in order. -/
def requestedBy (i : Fin n) (es : Trace n) : List String := toldBy requestsOf i es

/-- The command that a step of a server answers with SUCCESS. -/
def answersOf (node : Server.Node n) : Server.Action n → List String
  | .reply =>
    match node.client with
    | .replying value true => [value]
    | _ => []
  | _ => []

/-- The commands a server has answered with SUCCESS, in order. -/
def repliedBy (i : Fin n) (es : Trace n) : List String := toldBy answersOf i es

/-- The command that has been accepted and not answered yet. -/
def unanswered (node : Server.Node n) : List String :=
  match node.client with
  | .replying value true => [value]
  | .replicating value =>
    match node.consensus.thread with
    | .majorityAccepted _ | .logWritten _ | .accepted _ _ _ | .logWait true => [value]
    | _ => []
  | _ => []

/-- The value that a call is about. -/
def callValue : Consensus.Thread n → Option String
  | .prepare value _ _ | .majorityPromised value | .propose value _ _ | .majorityAccepted value
  | .logWritten value | .accepted value _ _ => some value
  | .idle | .logWait _ => none

/-- The call in progress is the client's, with its command. -/
structure ServesClient (node : Server.Node n) : Prop where
  idle : (∀ value, node.client ≠ .replicating value) → node.consensus.thread = .idle
  value : ∀ value w, node.client = .replicating value → callValue node.consensus.thread = some w →
    w = value

theorem ServesClient.same {node x : Server.Node n} (h : ServesClient node)
    (hc : x.client = node.client) (ht : x.consensus.thread = node.consensus.thread) :
    ServesClient x := by
  refine ⟨?_,?_⟩
  · rw [hc, ht]
    exact h.idle
  · rw [hc, ht]
    exact h.value

/-- What a call goes on with is the value it has had. -/
theorem callValue_proceed {node : Consensus.Node n} (h : Acts rank node (.proceed now) out)
    (hv : callValue out.state.thread = some w) : callValue node.thread = some w := by
  cases h with
  | promisesSampled value m ht | acceptsSampled value m ht =>
    dsimp only at hv
    split at hv
    · rwa [ht]
    · contradiction
  | reached | returned => contradiction
  | _ =>
    rename_i ht
    rwa [ht]

theorem ServesClient.act {node : Server.Node n} (h : ServesClient node)
    (ha : Server.act rank node a = some out) : ServesClient out.state := by
  cases serverActs_of_act ha with
  | connects hc | locks hc | hangsUp hc =>
    exact ⟨fun _ => h.idle (by simp [hc]),fun value w he => by simp at he⟩
  | replies value b hc => exact ⟨fun _ => h.idle (by simp [hc]),fun value w he => by simp at he⟩
  | calls value now cout hc hacts =>
    cases hacts
    refine ⟨fun hno => absurd rfl (hno value),?_⟩
    intro v w he hw
    cases he
    cases hw
    rfl
  | proceeds value now c cout hc hacts hd =>
    rcases hd with ⟨rfl,-⟩ | ⟨b,rfl,ht⟩
    · refine ⟨fun hno => absurd rfl (hno value),?_⟩
      intro v w he hw
      cases he
      exact h.value value w hc (callValue_proceed hacts hw)
    · have hidle : cout.state.thread = .idle := acts_returns hacts ht
      exact ⟨fun _ => hidle,fun v w he => by simp [ofConsensus] at he⟩
  | handles now src packet cout hr hacts => exact h.same rfl (handles_thread hacts)
  | resets cout hacts =>
    cases hacts
    exact h.same rfl rfl
  | elects | fails | recovers => exact h.same rfl rfl
  | runs t timedOut now op rest ops out' ht he =>
    have hframe := exec_frame he
    exact h.same hframe.client hframe.thread

theorem ServesClient.accept {node x : Server.Node n} (h : ServesClient node)
    (ha : Server.accept rank node tag src m = some x) : ServesClient x := by
  cases accepts_of_accept ha <;> exact h.same rfl rfl

theorem reach_servesClient {ok : Trace n → Server.Cluster n → Server.Move n → Prop}
    (hr : TraceReach elected ok s es) : ∀ i, ServesClient (s.nodes i) := by
  induction hr using TraceReach.run with
  | start => exact fun i => ⟨fun _ => rfl,fun value w he => nomatch he⟩
  | @step s es l t e hr hok hs ih hstep =>
    have hkeep := hstep.keeps (J := fun _ node => ServesClient node) (Q := fun _ _ _ => True)
      ⟨ih,fun _ _ _ _ _ => trivial⟩
    exact (hkeep (fun i a out _ ho => ⟨(ih i).act ho,fun _ _ _ => trivial⟩)
      (fun _ _ i _ _ _ _ hx => (ih i).accept hx)).1

/-! Accounting: what has succeeded has been answered, or will be next. -/

def succeededOf : Milestone → Option String
  | .succeeded value => some value
  | .called _ => none

def calledOf : Milestone → Option String
  | .called value => some value
  | .succeeded _ => none

theorem unanswered_same {node x : Server.Node n} (hc : x.client = node.client)
    (ht : x.consensus.thread = node.consensus.thread) : unanswered x = unanswered node := by
  simp only [unanswered, hc, ht]

/-- One section of a call accounts for what it lets succeed. -/
theorem unanswered_proceed {node : Server.Node n} (h : ServesClient node)
    (hc : node.client = .replicating value) (ha : Acts rank node.consensus (.proceed now) out)
    (ht : ∀ b, node.consensus.thread ≠ .logWait b) :
    unanswered node ++ (milestones node (.proceed now)).filterMap succeededOf =
      unanswered { node with consensus := out.state } := by
  cases ha with
  | acceptsSampled w m he =>
    have hw : w = value := h.value value w hc (by rw [he]; rfl)
    by_cases hr : Consensus.receiveAccepts n node.consensus.context = true
    · simp [unanswered, milestones, hc, he, hr, succeededOf, hw]
    · simp [unanswered, milestones, hc, he, hr]
  | promisesSampled w m he =>
    by_cases hr : Consensus.receivePromises n node.consensus.context = true
    · simp [unanswered, milestones, hc, he, hr]
    · simp [unanswered, milestones, hc, he, hr]
  | returned b he => exact absurd he (ht b)
  | sentPrepare w m dst rest he | proposed w now he | sentPropose w m dst rest he | appended w he
    | announced w now he | sentAccepted w m dst rest he | reached w m he =>
    simp [unanswered, milestones, hc, he]

theorem unanswered_act {node : Server.Node n} (h : ServesClient node)
    (ha : Server.act rank node a = some out) :
    unanswered node ++ (milestones node a).filterMap succeededOf =
      answersOf node a ++ unanswered out.state := by
  cases serverActs_of_act ha with
  | connects hc | locks hc | hangsUp hc => simp [unanswered, milestones, answersOf, hc]
  | replies value b hc => cases b <;> simp [unanswered, milestones, answersOf, hc]
  | calls value now cout hc hacts =>
    cases hacts
    simp [unanswered, milestones, answersOf, hc, succeededOf, ofConsensus]
  | proceeds value now c cout hc hacts hd =>
    rcases hd with ⟨rfl,ht⟩ | ⟨b,rfl,ht⟩
    · rw [unanswered_proceed h hc hacts ht]
      simp [unanswered, answersOf, ofConsensus, hc]
    · cases b <;> simp [unanswered, milestones, answersOf, hc, ht, ofConsensus]
  | handles now src packet cout hr hacts =>
    have hsame : unanswered (ofConsensus rank { node with received := none } cout).state =
        unanswered node := unanswered_same rfl (handles_thread hacts)
    simp [hsame, milestones, answersOf]
  | resets cout hacts =>
    cases hacts
    simp [unanswered, milestones, answersOf, ofConsensus]
  | elects | fails | recovers => simp [unanswered, milestones, answersOf, Server.Node.spawn]
  | runs t timedOut now op rest ops out' ht he =>
    have hframe := exec_frame he
    have hsame : unanswered (out'.state.setThread t (ops ++ rest)) = unanswered node :=
      unanswered_same hframe.client hframe.thread
    simp [hsame, milestones, answersOf]

theorem unanswered_accept {node x : Server.Node n} (ha : Server.accept rank node tag src m = some x) :
    unanswered x = unanswered node := by
  cases accepts_of_accept ha <;> exact unanswered_same rfl rfl

/-- Of the calls that have succeeded, at most the last has not been answered. -/
theorem succeeded_eq {ok : Trace n → Server.Cluster n → Server.Move n → Prop}
    (hr : TraceReach elected ok s es) (i : Fin n) :
    (milestonesAt i es).filterMap succeededOf = repliedBy i es ++ unanswered (s.nodes i) := by
  induction hr using TraceReach.run with
  | start => rfl
  | @step s es l t e hr hok hs ih hstep =>
    have hserves := reach_servesClient hr
    simp only [milestonesAt, repliedBy, toldBy_append, List.filterMap_append] at ih ⊢
    rw [ih]
    cases hstep with
    | act j a out ho =>
      rw [toldBy_act, toldBy_act]
      by_cases hj : j = i
      · subst hj
        rw [if_pos rfl, if_pos rfl, LaneNet.commit_self, List.append_assoc, List.append_assoc,
          unanswered_act (hserves j) ho]
      · simp [hj, LaneNet.commit_other _ _ _ (Ne.symm hj)]
    | receive k src dst m rest x hc hx =>
      simp only [toldBy_receive, List.filterMap_nil, List.append_nil]
      by_cases hj : i = dst
      · subst hj
        rw [LaneNet.take_self, unanswered_accept hx]
      · rw [LaneNet.take_other _ _ _ _ _ hj]

/-! What the protocol makes of the calls. -/

def callEvent : Consensus.Event n → Option (Nat × String)
  | .called c value _ => some (c,value)
  | _ => none

theorem filterMap_eventsOf (f : ε → Option β) (g : β → Option γ) (h : List (Obs ι μ ε)) :
    (eventsOf f h).filterMap g = eventsOf (fun e => (f e).bind g) h := by
  rw [eventsOf, eventsOf, List.filterMap_filterMap]
  congr 1
  funext o
  cases o <;> rfl

theorem successes_milestones (h : List (Obs (Fin n) Consensus.Packet (Consensus.Event n))) :
    (eventsOf success h).map Prod.snd = (eventsOf milestone h).filterMap succeededOf := by
  rw [← List.filterMap_eq_map, filterMap_eventsOf, filterMap_eventsOf]
  congr 1
  funext e
  cases e with
  | acceptsSampled c value b => cases b <;> rfl
  | _ => rfl

theorem calls_milestones (h : List (Obs (Fin n) Consensus.Packet (Consensus.Event n))) :
    (eventsOf callEvent h).map Prod.snd = (eventsOf milestone h).filterMap calledOf := by
  rw [← List.filterMap_eq_map, filterMap_eventsOf, filterMap_eventsOf]
  congr 1
  funext e
  cases e with
  | acceptsSampled c value b => cases b <;> rfl
  | _ => rfl

theorem requested_milestones (i : Fin n) (es : Trace n) :
    requestedBy i es = (milestonesAt i es).filterMap calledOf := by
  have hone : ∀ (node : Server.Node n) (a : Server.Action n),
      (milestones node a).filterMap calledOf = requestsOf node a := by
    intro node a
    cases a with
    | proceed now =>
      simp only [milestones]
      split
      · split <;> rfl
      · rfl
    | _ => rfl
  induction es using List.reverseRec with
  | nil => rfl
  | append_singleton es x ih =>
    obtain ⟨s,l⟩ := x
    simp only [requestedBy, milestonesAt, toldBy_append, List.filterMap_append] at ih ⊢
    rw [ih]
    congr 1
    cases l with
    | act j a =>
      rw [toldBy_act, toldBy_act]
      by_cases hj : j = i
      · rw [if_pos hj, if_pos hj, hone]
      · rw [if_neg hj, if_neg hj, List.filterMap_nil]
    | receive => rfl

section Protocol
variable {c : Consensus.Cluster n} {hist : Consensus.History n}

theorem nobodyDead_noneDead (es : Consensus.History n) (s : Consensus.Cluster n)
    (l : Consensus.Move n) (h : Consensus.nobodyDead es s l = true) : Consensus.NoneDead l :=
  of_decide_eq_true h

/-- Every entry comes from a call. -/
theorem called_of_entry (hr : Consensus.Reach (Consensus.holding Consensus.nobodyDead) c hist)
    (hm : (p,k,v) ∈ entries (historyAt i hist)) :
    (k,v) ∈ eventsOf callEvent (historyAt p hist) := by
  obtain ⟨e,he,hs⟩ := mem_eventsOf.mp (success_of_entry nobodyDead_noneDead hr hm)
  cases e with
  | acceptsSampled k' v' b =>
    cases b with
    | true =>
      cases hs
      obtain ⟨⟨pid,hcalled⟩,-⟩ := (run_recorded (reach_local hr p)).passed he
      exact mem_eventsOf.mpr ⟨_,hcalled,rfl⟩
    | false => contradiction
  | _ => contradiction

/-- No log has an entry that no call accounts for. -/
theorem log_subperm_calls (hr : Consensus.Reach (Consensus.holding Consensus.nobodyDead) c hist)
    (i : Fin n) : (c.nodes i).log.Subperm ((List.finRange n).flatMap
      (fun p => (eventsOf callEvent (historyAt p hist)).map Prod.snd)) := by
  let calls (p : Fin n) : List (Fin n × Nat × String) :=
    (eventsOf callEvent (historyAt p hist)).map (fun x => (p,x))
  have hsub : entries (historyAt i hist) ⊆ (List.finRange n).flatMap calls := by
    rintro ⟨p,k,v⟩ hm
    exact List.mem_flatMap.mpr ⟨p,List.mem_finRange p,
      List.mem_map.mpr ⟨_,called_of_entry hr hm,rfl⟩⟩
  have hnodup := (entries_distinct nobodyDead_noneDead hr i).of_map
  obtain ⟨l,hperm,hl⟩ := List.subperm_of_subset hnodup hsub
  have hvalues : ((List.finRange n).flatMap calls).map (fun x => x.2.2) =
      (List.finRange n).flatMap (fun p => (eventsOf callEvent (historyAt p hist)).map Prod.snd) := by
    simp [List.map_flatMap, calls, Function.comp_def]
  rw [run_log (reach_local hr i), ← hvalues]
  exact ⟨l.map (fun x => x.2.2),hperm.map _,hl.map _⟩

/-- The values in the log of `i` that come from calls of `p`. -/
theorem entriesFrom_sublist (hr : Consensus.Reach (Consensus.holding Consensus.nobodyDead) c hist)
    (p i : Fin n) :
    ((eventsOf (entryFrom p) (historyAt i hist)).map Prod.snd).Sublist (c.nodes i).log := by
  rw [run_log (reach_local hr i), eventsOf_entryFrom, List.map_map]
  exact List.filter_sublist.map _

/-- The log of `i` is made up of the values that come from the calls of each node. -/
theorem log_perm (hr : Consensus.Reach (Consensus.holding Consensus.nobodyDead) c hist)
    (i : Fin n) : (c.nodes i).log.Perm ((List.finRange n).flatMap
      (fun p => (eventsOf (entryFrom p) (historyAt i hist)).map Prod.snd)) := by
  have hgroups := (perm_groups (fun x => x.1) (entries (historyAt i hist))).map (fun x => x.2.2)
  rw [List.map_flatMap] at hgroups
  rw [run_log (reach_local hr i)]
  simpa only [eventsOf_entryFrom, List.map_map, Function.comp_def] using hgroups

end Protocol

/-- No client waits for an answer, and no CONSENSUS message waits to be handled. -/
structure Quiesced (nodes : Fin n → Server.Node n) : Prop where
  idle : ∀ i value, (nodes i).client ≠ .replicating value
  answered : ∀ i value b, (nodes i).client ≠ .replying value b
  handled : ∀ i, (nodes i).received = none

theorem Quiesced.unanswered {nodes : Fin n → Server.Node n} (h : Quiesced nodes) (i : Fin n) :
    unanswered (nodes i) = [] := by
  unfold Algorep.Proofs.unanswered
  split
  · rename_i value hc
    exact absurd hc (h.answered i value true)
  · rename_i value hc
    exact absurd hc (h.idle i value)
  · rfl

section Hosted
variable {s : Server.Cluster n} {c : Consensus.Cluster n}

/-- What a server still owes to its own log has not been answered either. -/
theorem unsent_unanswered {node : Server.Node n} (hs : ServesClient node) (rank : Fin n) :
    unsent rank node.consensus rank = [] ∨
      (unsent rank node.consensus rank).length = (unanswered node).length := by
  by_cases hc : ∃ value, node.client = .replicating value
  · obtain ⟨value,hc⟩ := hc
    unfold unsent
    split
    · rename_i v ht
      exact .inr (by simp [unanswered, hc, ht])
    · exact .inl (if_pos rfl)
    · rename_i v m rest ht
      by_cases hr : rank ∈ rest
      · exact .inr (by simp [unanswered, hc, ht, hr])
      · exact .inl (if_neg hr)
    · exact .inl rfl
  · left
    simp [unsent, hs.idle (fun value he => hc ⟨value,he⟩)]

/-- A server has its own success in its log before it answers. -/
theorem answered_prefix {own : List (Nat × String)} {answered : List String} {i : Fin n}
    (hs : ServesClient (s.nodes i)) (hc : ConsensusOf s c) (hself : c.chan i i = [])
    (h : (own ++ pending c i i).map Prod.snd = answered ++ unanswered (s.nodes i)) :
    answered <+: own.map Prod.snd := by
  have hpending : pending c i i = unsent i (s.nodes i).consensus i := by
    rw [pending, hself, hc.nodes i]
    rfl
  rw [List.map_append, hpending] at h
  rcases unsent_unanswered hs i with hnone | hlength
  · rw [hnone, List.map_nil, List.append_nil] at h
    exact h ▸ List.prefix_append _ _
  · have heq := List.append_inj_left' h (by rw [List.length_map, hlength])
    exact heq ▸ List.prefix_refl _

theorem Quiesced.pending (h : Quiesced s.nodes) (hchan : ∀ a b, s.chan .consensus a b = [])
    (hs : ∀ i, ServesClient (s.nodes i)) (hc : ConsensusOf s c) (p i : Fin n) :
    pending c p i = [] := by
  have hchan : c.chan p i = [] := by
    rw [hc.chan, h.handled, hchan]
    rfl
  have hidle : (s.nodes p).consensus.thread = .idle := (hs p).idle (h.idle p)
  rw [Algorep.Proofs.pending, hchan, hc.nodes p]
  simp [learned, unsent, hidle]

end Hosted

/-- What the logs have of what the servers have been asked and have answered. -/
structure LogsAnswer (asked told : Fin n → List String) (nodes : Fin n → Server.Node n)
    (silent : Prop) : Prop where
  replied : ∀ i, (told i).Sublist (nodes i).log
  requested : ∀ i, (nodes i).log.Subperm ((List.finRange n).flatMap asked)
  learned : Quiesced nodes → silent → ∀ i p, (told p).Sublist (nodes i).log
  merged : Quiesced nodes → silent → ∀ i, (nodes i).log.Perm ((List.finRange n).flatMap told)

/-- While no node is taken for dead, a server's log has all that the server has answered with
SUCCESS, in the order of its answers, and every log only has commands that have been requested,
each of them once for a request. Once everything has been delivered, every log is a merge of
what each server has answered. -/
theorem unsuspected_logs (elected : Option (Fin n))
    (hr : TraceReach elected (fun _ _ l => suspectsNobody l = true) s es) :
    LogsAnswer (fun i => requestedBy i es) (fun i => repliedBy i es) s.nodes
      (∀ a b, s.chan .consensus a b = []) := by
  obtain ⟨c,hist,hrc,hc,htold⟩ := servers_run_consensus elected hr
  have hserves := reach_servesClient hr
  have hself := (reach_recorded hrc).1
  have hlog : ∀ i, (c.nodes i).log = (s.nodes i).log := fun i => by
    rw [hc.nodes i]
    rfl
  have hsucceeded : ∀ p i, (eventsOf (entryFrom p) (historyAt i hist) ++ pending c p i).map
      Prod.snd = repliedBy p es ++ unanswered (s.nodes p) := by
    intro p i
    rw [← successes_eq nobodyDead_noneDead hrc p i, successes_milestones, htold,
      succeeded_eq hr]
  have hreplied : Quiesced s.nodes → (∀ a b, s.chan .consensus a b = []) → ∀ i p,
      (eventsOf (entryFrom p) (historyAt i hist)).map Prod.snd = repliedBy p es := by
    intro hq hchan i p
    have heq := hsucceeded p i
    rwa [hq.pending hchan hserves hc, hq.unanswered, List.append_nil, List.append_nil] at heq
  refine ⟨?_,?_,?_,?_⟩
  · intro i
    have hprefix := answered_prefix (hserves i) hc (hself i) (hsucceeded i i)
    exact hprefix.sublist.trans (hlog i ▸ entriesFrom_sublist hrc i i)
  · intro i
    have hcalls : ∀ p, (eventsOf callEvent (historyAt p hist)).map Prod.snd = requestedBy p es := by
      intro p
      rw [calls_milestones, htold, requested_milestones]
    have hsub := log_subperm_calls hrc i
    rw [hlog] at hsub
    simpa only [hcalls] using hsub
  · intro hq hchan i p
    rw [← hreplied hq hchan i p, ← hlog]
    exact entriesFrom_sublist hrc p i
  · intro hq hchan i
    have hperm := log_perm hrc i
    rw [hlog] at hperm
    simpa only [hreplied hq hchan i] using hperm

end Algorep.Proofs
