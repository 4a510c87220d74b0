import Algorep.Proofs.ExactlyOnce

namespace Algorep.Proofs
open Kit Program Program.Consensus

/-- A proposer passes its accept check only while every successful call of every
other proposer has reached every log. -/
def decidesAlone (_ : History n) (s : Cluster n) (l : Move n) : Bool :=
  decide (NoneDead l) && match l.2 with
  | .act p (.proceed _) =>
    match (s.nodes p).thread with
    | .propose _ _ [] => !receiveAccepts n (s.nodes p).context ||
        decide (∀ q i, q ≠ p → pending s q i = [])
    | _ => true
  | _ => true

theorem decidesAlone_up (h : decidesAlone (n := n) es s l = true) : NoneDead l := by
  simp only [decidesAlone, Bool.and_eq_true, decide_eq_true_eq] at h
  exact h.1

/-- What a step of one node adds to the successful calls and to the log. -/
inductive Adds (node : Node n) (input : Input (Fin n) Action Nat Packet) (out : Result n) : Prop
  | nothing (hs : out.events.filterMap success = []) (he : out.events.filterMap entry = [])
  | success (x : Nat × String) (v : String) (m : Message) (now : Nat)
      (hi : input = .act (.proceed now)) (ht : node.thread = .propose v m [])
      (hp : receiveAccepts n node.context = true)
      (hs : out.events.filterMap success = [x]) (he : out.events.filterMap entry = [])
  | entry (x : Fin n × Nat × String)
      (hs : out.events.filterMap success = []) (he : out.events.filterMap entry = [x])

theorem acts_adds {node : Node n} (ha : Acts rank node a out) : Adds node (.act a) out := by
  cases ha with
  | acceptsSampled value m ht =>
    cases hp : receiveAccepts n node.context with
    | false => exact .nothing rfl rfl
    | true => exact .success _ value m _ rfl ht hp rfl rfl
  | appended value ht => exact .entry _ rfl rfl
  | _ => exact .nothing rfl rfl

theorem handles_adds (ha : Handles rank node src packet now out) :
    Adds node (.handle src packet now) out := by
  cases ha with
  | learned pid roundId value hm => exact .entry _ rfl rfl
  | _ => exact .nothing rfl rfl

/-- What a step of the network adds, and at which node. -/
inductive NetAdds (s : Cluster n) (l : Label (Fin n) Action Nat) (e : History n) : Prop
  | nothing (hs : ∀ q, eventsOf success (historyAt q e) = [])
      (he : ∀ i, entries (historyAt i e) = [])
  | success (p : Fin n) (x : Nat × String) (v : String) (m : Message) (now : Nat)
      (hl : l = .act p (.proceed now)) (ht : (s.nodes p).thread = .propose v m [])
      (hp : receiveAccepts n (s.nodes p).context = true)
      (hs : ∀ q, eventsOf success (historyAt q e) = if p = q then [x] else [])
      (he : ∀ i, entries (historyAt i e) = [])
  | entry (j : Fin n) (x : Fin n × Nat × String)
      (hs : ∀ q, eventsOf success (historyAt q e) = [])
      (he : ∀ i, entries (historyAt i e) = if j = i then [x] else [])

theorem step_adds {s : Cluster n} (h : (process n).Step up s l t e) : NetAdds s l e := by
  -- what one node adds is all that is added
  have hlift : ∀ (i : Fin n) (input : Input (Fin n) Action Nat Packet) (out : Result n)
      (e : History n), (∀ now, input = .act (.proceed now) → l = .act i (.proceed now)) →
      (∀ {β : Type} (f : Event n → Option β) (q : Fin n),
        eventsOf f (historyAt q e) = if i = q then out.events.filterMap f else []) →
      Adds (s.nodes i) input out → NetAdds s l e := by
    intro i input out e hlabel hevents ha
    cases ha with
    | nothing hs he =>
      refine .nothing ?_ ?_
      · intro q; rw [hevents, hs, ite_self]
      · intro q; rw [entries, hevents, he, ite_self]
    | success x v m now hi ht hp hs he =>
      refine .success i x v m now (hlabel now hi) ht hp ?_ ?_
      · intro q; rw [hevents, hs]
      · intro q; rw [entries, hevents, he, ite_self]
    | entry x hs he =>
      refine .entry i x ?_ ?_
      · intro q; rw [hevents, hs, ite_self]
      · intro q; rw [entries, hevents, he]
  cases h with
  | act i a out ho =>
    refine hlift i (.act a) out _ ?_ ?_ (acts_adds (acts_of_act ho))
    · intro now hi
      cases hi
      rfl
    · intro β f q
      rw [historyAt_tag]
      split
      · exact eventsOf_trace f out
      · rfl
  | handle src dst o m rest out hc hu ho =>
    refine hlift dst (.handle src m o) out _ (by simp) ?_ (handles_adds (handles_of_handle ho).2)
    intro β f q
    rw [historyAt_cons, historyAt_tag]
    split
    · rw [eventsOf_received, eventsOf_trace]
    · rfl
  | discard src dst o m rest hc hu => exact .nothing (fun _ => rfl) (fun _ => rfl)

/-- A step moves the successful calls of `q` along: what joins them joins those
owed to `i`, and what `i` writes of them leaves these. -/
theorem pending_step (hr : Reach (n := n) (holding decidesAlone) s es)
    (hok : decidesAlone es s l = true) (hs : (process n).network.step s l = some (t,e))
    (q i : Fin n) : pending s q i ++ eventsOf success (historyAt q e) =
      eventsOf (entryFrom q) (historyAt i e) ++ pending t q i := by
  have hup : ∀ es s l, decidesAlone (n := n) es s l = true → NoneDead l :=
    fun _ _ _ => decidesAlone_up
  have hbefore := successes_eq hup hr q i
  have hafter := successes_eq hup (hr.step hok hs) q i
  rw [historyAt_append, historyAt_append, eventsOf_append, eventsOf_append, hbefore,
    List.append_assoc, List.append_assoc] at hafter
  exact List.append_cancel_left hafter

/-- One proposer at most is still owed, and every log followed by what this
proposer owes it is the same list. -/
def Serial (s : Cluster n) (es : History n) : Prop :=
  ∃ p D, (∀ i, entries (historyAt i es) ++ (pending s p i).map (fun x => (p,x)) = D) ∧
    ∀ q, q ≠ p → ∀ i, pending s q i = []

theorem step_serial (hr : Reach (n := n) (holding decidesAlone) s es)
    (hok : decidesAlone es s l = true) (hs : (process n).network.step s l = some (t,e))
    (ih : Serial s es) : Serial t (es ++ e) := by
  obtain ⟨p,D,hall,hnone⟩ := ih
  have hmove := pending_step hr hok hs
  have hsplit : ∀ i, entries (historyAt i (es ++ e)) =
      entries (historyAt i es) ++ entries (historyAt i e) := by
    intro i
    rw [historyAt_append, entries, eventsOf_append]
    rfl
  obtain ⟨up,l⟩ := l
  cases step_adds (Process.step_iff.mp hs) with
  | nothing hsucc hent =>
    have hsame : ∀ q i, pending t q i = pending s q i := by
      intro q i
      have h := hmove q i
      rw [hsucc, eventsOf_entryFrom, hent] at h
      simpa using h.symm
    refine ⟨p,D,?_,?_⟩
    · intro i
      rw [hsplit, hent, List.append_nil, hsame, hall]
    · intro q hq i
      rw [hsame, hnone q hq]
  | success p' x v m now hl ht hp hsucc hent =>
    subst hl
    have halone : ∀ q i, q ≠ p' → pending s q i = [] := by
      have hguard : NoneDead (up,Label.act p' (.proceed now)) ∧
          ∀ q i, q ≠ p' → pending s q i = [] := by
        simpa [decidesAlone, ht, hp] using hok
      exact hguard.2
    have hgrow : ∀ q i, pending t q i = pending s q i ++ if p' = q then [x] else [] := by
      intro q i
      have h := hmove q i
      rw [hsucc, eventsOf_entryFrom, hent] at h
      simpa using h.symm
    have hlevel : ∀ i, entries (historyAt i es) ++ (pending s p' i).map (fun x => (p',x)) = D := by
      intro i
      rcases Decidable.em (p' = p) with he | hne
      · rw [he, hall]
      · have h := hall i
        rw [halone p i (Ne.symm hne)] at h
        rw [hnone p' hne i]
        exact h
    refine ⟨p',D ++ [(p',x)],?_,?_⟩
    · intro i
      rw [hsplit, hent, List.append_nil, hgrow, if_pos rfl, List.map_append, ← List.append_assoc,
        hlevel]
      rfl
    · intro q hq i
      rw [hgrow, halone q i hq, if_neg (Ne.symm hq)]
      rfl
  | entry j x hsucc hent =>
    obtain ⟨src,c,v⟩ := x
    have htake : ∀ q i, pending s q i =
        (if j = i ∧ src = q then [(c,v)] else []) ++ pending t q i := by
      intro q i
      have h := hmove q i
      rw [hsucc, List.append_nil, eventsOf_entryFrom, hent] at h
      rw [h]
      congr 1
      by_cases hj : j = i
      · by_cases hsrc : src = q <;> simp [hj, hsrc]
      · simp [hj]
    -- only the proposer still owed can be written
    have hsrc : src = p := by
      by_contra hne
      have h := htake src j
      rw [hnone src hne j, if_pos ⟨rfl,rfl⟩] at h
      contradiction
    subst hsrc
    refine ⟨src,D,?_,?_⟩
    · intro i
      have h := hall i
      rw [htake src i] at h
      rw [hsplit, hent, ← h]
      by_cases hj : j = i <;> simp [hj]
    · intro q hq i
      have h := htake q i
      rw [hnone q hq i, if_neg (fun hjq => hq hjq.2.symm)] at h
      exact h.symm

/-- While decisions wait for those of others to reach every log, any two logs are
comparable by prefix. -/
theorem logs_comparable (hr : Reach (n := n) (holding decidesAlone) s es) (i j : Fin n) :
    (s.nodes i).log <+: (s.nodes j).log ∨ (s.nodes j).log <+: (s.nodes i).log := by
  have hserial : Serial s es := by
    induction hr with
    | start => exact ⟨i,[],fun _ => rfl,fun _ _ _ => rfl⟩
    | step hr hok hs ih => exact step_serial hr hok hs ih
  obtain ⟨p,D,hall,_⟩ := hserial
  have hbelow : ∀ k, (s.nodes k).log <+: D.map (fun x => x.2.2) := by
    intro k
    rw [run_log (reach_local hr k), ← hall k, List.map_append]
    exact List.prefix_append _ _
  exact List.prefix_or_prefix_of_prefix (hbelow i) (hbelow j)

/-- `p` gets "a" accepted by `r`, and `q` gets "b" accepted by it once everybody has learned
"a". `r` learns "b" as well. -/
def oneAfterAnother (p q r : Fin n) : List (Move n) := taught p r ++
  [.deliver p q 20,.deliver p q 20,.deliver p q 20,.act q .resetContext,.act r .resetContext,
    .call q "b" 30,.proceed q 30,.proceed q 30,.deliver q r 30,.deliver r q 30,.proceed q 35,
    .proceed q 35,.proceed q 35,.proceed q 35,.deliver q r 35,.deliver r q 35,.proceed q 40,
    .proceed q 40,.proceed q 40,.proceed q 40,.proceed q 40,.deliver q r 40]

theorem oneAfterAnother_alone : outcome (n := 3) decidesAlone (oneAfterAnother 0 1 2)
    (fun r => ((r.1.nodes 0).log,(r.1.nodes 1).log,(r.1.nodes 2).log)) =
      some (["a"],["a","b"],["a","b"]) := by
  decide

theorem logs_comparable_oneAfterAnother : ∃ (s : Cluster 3) (es : History 3),
    Reach (holding decidesAlone) s es ∧ (s.nodes 0).log = ["a"] ∧ (s.nodes 2).log = ["a","b"] ∧
    ((s.nodes 0).log <+: (s.nodes 2).log ∨ (s.nodes 2).log <+: (s.nodes 0).log) := by
  obtain ⟨s,es,hr,h⟩ := Machine.exists_reach (fun _ _ _ h => h) oneAfterAnother_alone
  obtain ⟨h0,h12⟩ := Prod.mk.inj h
  exact ⟨s,es,hr,h0,(Prod.mk.inj h12).2,logs_comparable hr 0 2⟩

/-- `r` has learned "a" of `p` and forgotten that it accepted it, and `q` has not
heard of "a" yet: it gets "b" accepted and appended. -/
def overtaken (p q r : Fin n) : List (Move n) := taught p r ++
  [.act r .resetContext,.call q "b" 30,.proceed q 30,.proceed q 30,.deliver q r 30,.deliver r q 30,
    .proceed q 35,.proceed q 35,.proceed q 35,.proceed q 35,.deliver q r 35,.deliver r q 35,
    .proceed q 40,.proceed q 40]

theorem overtaken_logs : outcome (n := 3) nobodyDead (overtaken 0 1 2)
    (fun r => ((r.1.nodes 0).log,(r.1.nodes 1).log)) = some (["a"],["b"]) := by
  decide

theorem logs_diverge : ∃ (s : Cluster 3) (es : History 3), Reach (holding nobodyDead) s es ∧
    ¬ ((s.nodes 0).log <+: (s.nodes 1).log ∨ (s.nodes 1).log <+: (s.nodes 0).log) := by
  obtain ⟨s,es,hr,h⟩ := Machine.exists_reach (fun _ _ _ h => h) overtaken_logs
  obtain ⟨h0,h1⟩ := Prod.mk.inj h
  dsimp only at h0 h1
  refine ⟨s,es,hr,?_⟩
  rw [h0, h1]
  decide

end Algorep.Proofs
