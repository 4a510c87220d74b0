import Algorep.Proofs.Provenance
import Algorep.Proofs.WellTimed

namespace Algorep.Proofs
open Kit Program Program.Consensus

theorem run_standing (hr : Reach (n := n) (holding wellTimed) s es) : Standing s es := by
  induction hr with
  | start =>
    exact .resting (fun _ => ⟨⟨rfl,rfl,rfl⟩,rfl,.inl rfl⟩) (fun _ _ => rfl)
  | @step s es l t e hr hok hs ih =>
    obtain ⟨up,l⟩ := l
    exact step_standing ih (reach_recorded hr).1 hok (Process.step_iff.mp hs)

theorem Standing.waits {s : Cluster n} (h : Standing s es)
    (hi : (s.nodes i).thread = .logWait b) : b = true := by
  cases h with
  | resting hn hc =>
    rw [(hn i).1.thread] at hi
    contradiction
  | round p log r v x rest heard hv hk hb hm hp hr =>
    rcases Decidable.em (i = p) with rfl | hne
    · cases hp with
      | wait ht =>
        rw [ht] at hi
        cases hi
        rfl
      | prepare ht | promised ht | propose ht | accepted ht | written ht | announce ht
      | returned ht =>
        rw [ht] at hi
        contradiction
    · rw [hr.idle hne] at hi
      contradiction

/-- A call returns what it carries out of its last wait. -/
theorem step_returned {s : Cluster n} (h : (process n).Step up s l t e)
    (hm : .did (.returned c b) ∈ historyAt i e) : (s.nodes i).thread = .logWait b := by
  cases h with
  | act j a out ho =>
    rw [historyAt_tag] at hm
    split at hm
    · rename_i hj
      subst hj
      cases acts_of_act ho with
      | returned b' ht =>
        simp only [Outcome.trace, List.map_cons, List.map_nil, Option.map_none,
          Option.toList_none, List.append_nil, List.mem_singleton] at hm
        cases hm
        exact ht
      | _ => simp [Outcome.trace] at hm
    · contradiction
  | handle src dst o m rest out hc hu ho =>
    rw [historyAt_cons, historyAt_tag] at hm
    split at hm
    · cases (handles_of_handle ho).2
      all_goals simp [Outcome.trace] at hm
    · contradiction
  | discard => contradiction

/-- In well-timed runs no call fails. -/
theorem run_returned (hr : Reach (n := n) (holding wellTimed) s es)
    (hm : .did (.returned c b) ∈ historyAt i es) : b = true := by
  induction hr with
  | start => simp at hm
  | @step s es l t e hr hok hs ih =>
    rw [historyAt_append] at hm
    rcases List.mem_append.mp hm with hm | hm
    · exact ih hm
    · exact (run_standing hr).waits (step_returned (Process.step_iff.mp hs) hm)

/-- Outside `startConsensus` every call has returned. -/
theorem called_returned {ok : Guard n} (hr : Reach ok s es) (hi : (s.nodes p).thread = .idle)
    (hm : .did (.called c v r) ∈ historyAt p es) :
    ∃ b, .did (.returned c b) ∈ historyAt p es := by
  have hrec := run_recorded (reach_local hr p)
  have hown : .called c v r ∈ ofCall p c (historyAt p es) := mem_ofCall hm rfl
  have hstory : Told p c .idle (ofCall p c (historyAt p es)) := by
    rcases Nat.lt_trichotomy c (s.nodes p).calls with hlt | rfl | hgt
    · exact hrec.past c hlt
    · exact hi ▸ hrec.current
    · rw [hrec.future c hgt] at hown
      contradiction
  generalize he : ofCall p c (historyAt p es) = story at hstory hown
  cases hstory with
  | never => contradiction
  | returned ht => exact ⟨_,mem_of_ofCall (he ▸ List.mem_append_right _ List.mem_cons_self)⟩

/-! Every script of calls has a well-timed run. -/

/-- A well-timed run has made these calls and is quiet, with `p` where `thread` says
and nobody else inside `startConsensus`. -/
def Ready (calls : List (Fin n × String × Int)) (p : Fin n) (thread : Thread n) : Prop :=
  ∃ s es, Reach (holding wellTimed) s es ∧ Quiet s ∧ submitted es = calls ∧
    (s.nodes p).thread = thread ∧ ∀ i, i ≠ p → (s.nodes i).thread = .idle

theorem noneDead_allUp (l : Label (Fin n) Action Nat) : NoneDead (allUp,l) := by
  intro a b
  rw [links_noneDead]

theorem proceed_wellTimed {s : Cluster n} (hq : Quiet s) :
    wellTimed es s (allUp,.act p (.proceed now)) = true := by
  simp only [wellTimed, noneDead_allUp, decide_true, Bool.true_and]
  split
  · exact decide_eq_true hq
  · exact decide_eq_true hq
  · rfl

theorem deliver_wellTimed (s : Cluster n) (now : Nat) : wellTimed es s (allUp,.deliver a b now) = true := by
  simp [wellTimed, noneDead_allUp]

theorem reset_wellTimed (s : Cluster n) : wellTimed es s (allUp,.act i .resetContext) = true := by
  simp [wellTimed, noneDead_allUp]

/-- A step that is no call, taken by the rules. -/
theorem uncalled {s : Cluster n} (hr : Reach (holding wellTimed) s es)
    (hok : wellTimed es s (allUp,l) = true) (hs : (process n).Step allUp s l t e)
    (hl : ∀ p v now, l ≠ .act p (.startConsensus v now)) :
    ∃ es', Reach (holding wellTimed) t es' ∧ submitted es' = submitted es :=
  ⟨es ++ e,hr.step hok (Process.step_iff.mpr hs),submitted_uncalled es hs hl⟩

/-- A step of the client thread that sends nothing. -/
theorem Ready.local {thread : Thread n} (h : Ready calls p thread) {Q : Thread n → Prop}
    (hstep : ∀ node : Node n, node.thread = thread → ∃ out, act p node (.proceed 0) = some out ∧
      out.send = none ∧ out.state.resetting = node.resetting ∧ Q out.state.thread) :
    ∃ thread', Q thread' ∧ Ready calls p thread' := by
  obtain ⟨s,es,hr,hq,hsub,ht,hidle⟩ := h
  obtain ⟨out,ho,hsend,hreset,hQ⟩ := hstep (s.nodes p) ht
  obtain ⟨es',hr',hsub'⟩ := uncalled hr (proceed_wellTimed hq) (.act p (Action.proceed 0) out ho)
    (by simp)
  refine ⟨_,hQ,_,_,hr',⟨?_,?_⟩,hsub'.trans hsub,?_,?_⟩
  · rw [Net.commit_silent _ _ _ hsend]
    exact hq.1
  · intro i
    rcases Decidable.em (i = p) with rfl | hne
    · rw [Net.commit_self, hreset, hq.2]
    · rw [Net.commit_other _ _ _ hne, hq.2]
  · rw [Net.commit_self]
  · intro i hne
    rw [Net.commit_other _ _ _ hne]
    exact hidle i hne

theorem handle_total {node : Node n} (h : node.resetting = false) (rank src : Fin n)
    (packet : Packet) (now : Nat) : ∃ out, handleMessage rank node src packet now = some out := by
  simp only [handleMessage, h, Bool.false_eq_true, ↓reduceIte]
  split
  all_goals exact ⟨_,rfl⟩

/-- A handler replies, or does not, or leaves the receiver inside the handler. -/
theorem handles_cases {rank : Fin n} (ha : Handles rank node src packet now out) :
    (out.send = none ∧ out.state.resetting = node.resetting) ∨
    (out.send = none ∧ out.state.resetting = true) ∨
    ∃ reply, out.send = some (src,reply) ∧ isReply reply.message = true ∧
      out.state.resetting = node.resetting := by
  cases ha with
  | promised | accepted => exact .inr (.inr ⟨_,rfl,rfl,rfl⟩)
  | learned => exact .inr (.inl ⟨rfl,rfl⟩)
  | _ => exact .inl ⟨rfl,rfl⟩

/-- Replies are handled without a reply. -/
theorem handles_reply {rank : Fin n} (ha : Handles rank node src packet now out)
    (hm : isReply packet.message = true) :
    out.send = none ∧ out.state.resetting = node.resetting := by
  cases ha with
  | countedPromise | countedAccept => exact ⟨rfl,rfl⟩
  | promised _ he | accepted _ _ _ he | learned _ _ _ he =>
    rw [he] at hm
    contradiction
  | refusedPrepare | refusedPropose => exact ⟨rfl,rfl⟩

/-- A node inside a handler gets out of it. -/
theorem settle_reset {s : Cluster n} (hr : Reach (holding wellTimed) s es)
    (hc : ∀ a b, s.chan a b = []) (hb : ∀ i, i ≠ j → (s.nodes i).resetting = false) :
    ∃ t es', Reach (holding wellTimed) t es' ∧ Quiet t ∧ submitted es' = submitted es ∧
      ∀ i, (t.nodes i).thread = (s.nodes i).thread := by
  cases hj : (s.nodes j).resetting with
  | false =>
    refine ⟨s,es,hr,⟨hc,?_⟩,rfl,fun _ => rfl⟩
    intro i
    rcases Decidable.em (i = j) with rfl | hne
    · exact hj
    · exact hb i hne
  | true =>
    have ho : act j (s.nodes j) .resetContext =
        some { state := { s.nodes j with context := {}, resetting := false } } := by
      simp [act, hj]
    obtain ⟨es',hr',hsub⟩ := uncalled hr (reset_wellTimed s) (.act j Action.resetContext _ ho) (by simp)
    refine ⟨_,es',hr',⟨?_,?_⟩,hsub,?_⟩
    · rw [Net.commit_silent _ _ _ rfl]
      exact hc
    · intro i
      rcases Decidable.em (i = j) with rfl | hne
      · rw [Net.commit_self]
      · rw [Net.commit_other _ _ _ hne, hb i hne]
    · intro i
      rcases Decidable.em (i = j) with rfl | hne
      · rw [Net.commit_self]
      · rw [Net.commit_other _ _ _ hne]

/-- The one message in flight is handled, and so is what comes back. -/
theorem drain {s : Cluster n} (hr : Reach (holding wellTimed) s es) (hne : b ≠ a)
    (hc : ∀ c d, s.chan c d = if c = a ∧ d = b then [packet] else [])
    (hb : ∀ i, (s.nodes i).resetting = false) :
    ∃ t es', Reach (holding wellTimed) t es' ∧ Quiet t ∧ submitted es' = submitted es ∧
      ∀ i, (t.nodes i).thread = (s.nodes i).thread := by
  obtain ⟨out,ho⟩ := handle_total (hb b) b a packet 0
  have ha := (handles_of_handle ho).2
  obtain ⟨es',hr',hsub⟩ := uncalled hr (deliver_wellTimed s 0)
    (.handle a b 0 packet [] out (by simp [hc]) rfl ho) (by simp)
  have hchan : ∀ c d, ((s.setChan a b []).commit allUp b out).chan c d =
      if c = b ∧ d = a then (out.send.map Prod.snd).toList else [] := by
    intro c d
    rw [handle_chan ha, hc]
    split <;> simp
  have hthread : ∀ i, (((s.setChan a b []).commit allUp b out).nodes i).thread =
      (s.nodes i).thread := by
    intro i
    rcases Decidable.em (i = b) with rfl | hi
    · rw [Net.commit_self, handles_thread ha]
    · rw [Net.commit_other _ _ _ hi, Net.setChan_nodes]
  have hother : ∀ i, i ≠ b →
      (((s.setChan a b []).commit allUp b out).nodes i).resetting = false := by
    intro i hi
    rw [Net.commit_other _ _ _ hi, Net.setChan_nodes, hb]
  rcases handles_cases ha with ⟨hsend,_⟩ | ⟨hsend,_⟩ | ⟨reply,hsend,hreply,hbo⟩
  · obtain ⟨t,es'',hr'',hq,hs,ht⟩ := settle_reset hr' (by simp [hchan, hsend]) hother
    exact ⟨t,es'',hr'',hq,hs.trans hsub,fun i => (ht i).trans (hthread i)⟩
  · obtain ⟨t,es'',hr'',hq,hs,ht⟩ := settle_reset hr' (by simp [hchan, hsend]) hother
    exact ⟨t,es'',hr'',hq,hs.trans hsub,fun i => (ht i).trans (hthread i)⟩
  · have hself : ∀ i, (((s.setChan a b []).commit allUp b out).nodes i).resetting = false := by
      intro i
      rcases Decidable.em (i = b) with rfl | hi
      · rw [Net.commit_self, hbo, hb]
      · exact hother i hi
    obtain ⟨out',ho'⟩ := handle_total (hself a) a b reply 0
    have ha' := (handles_of_handle ho').2
    obtain ⟨hsend',hbo'⟩ := handles_reply ha' hreply
    obtain ⟨es'',hr'',hsub'⟩ := uncalled hr' (deliver_wellTimed _ 0)
      (.handle b a 0 reply [] out' (by simp [hchan, hsend]) rfl ho') (by simp)
    refine ⟨_,es'',hr'',⟨?_,?_⟩,hsub'.trans hsub,?_⟩
    · intro c d
      rw [handle_chan ha', hsend', hchan]
      split <;> simp
    · intro i
      rcases Decidable.em (i = a) with rfl | hi
      · rw [Net.commit_self, hbo', hself]
      · rw [Net.commit_other _ _ _ hi, Net.setChan_nodes, hself]
    · intro i
      rw [← hthread i]
      rcases Decidable.em (i = a) with rfl | hi
      · rw [Net.commit_self, handles_thread ha']
      · rw [Net.commit_other _ _ _ hi, Net.setChan_nodes]

/-- A step of the client thread that sends, with all that follows from it. -/
theorem Ready.send {thread : Thread n} (h : Ready calls p thread) (hd : dst ≠ p)
    (hstep : ∀ node : Node n, node.thread = thread → ∃ out packet,
      act p node (.proceed 0) = some out ∧ out.send = some (dst,packet) ∧
      out.state.resetting = node.resetting ∧ out.state.thread = thread') :
    Ready calls p thread' := by
  obtain ⟨s,es,hr,hq,hsub,ht,hidle⟩ := h
  obtain ⟨out,packet,ho,hsend,hreset,hthread⟩ := hstep (s.nodes p) ht
  obtain ⟨es',hr',hsub'⟩ := uncalled hr (proceed_wellTimed hq) (.act p (Action.proceed 0) out ho)
    (by simp)
  have hchan : ∀ c d, (s.commit allUp p out).chan c d = if c = p ∧ d = dst then [packet] else [] := by
    intro c d
    rw [Net.commit_chan, sentTo_trace, hsend, hq.1]
    by_cases hc : c = p
    · by_cases hdd : d = dst
      · simp [hc, hdd, allUp]
      · simp [hc, hdd, Ne.symm hdd]
    · simp [hc]
  have hawake : ∀ i, ((s.commit allUp p out).nodes i).resetting = false := by
    intro i
    rcases Decidable.em (i = p) with rfl | hne
    · rw [Net.commit_self, hreset, hq.2]
    · rw [Net.commit_other _ _ _ hne, hq.2]
  obtain ⟨t,es'',hr'',hquiet,hs,hsame⟩ := drain hr' hd hchan hawake
  refine ⟨t,es'',hr'',hquiet,hs.trans (hsub'.trans hsub),?_,?_⟩
  · rw [hsame, Net.commit_self, hthread]
  · intro i hne
    rw [hsame, Net.commit_other _ _ _ hne, hidle i hne]

/-- A broadcast, with all that follows from each of its messages. -/
theorem Ready.broadcast (thread : List (Fin n) → Thread n)
    (hstep : ∀ dst rest (node : Node n), node.thread = thread (dst::rest) → ∃ out packet,
      act p node (.proceed 0) = some out ∧ out.send = some (dst,packet) ∧
      out.state.resetting = node.resetting ∧ out.state.thread = thread rest)
    (hp : ∀ i ∈ rest, i ≠ p) (h : Ready calls p (thread rest)) : Ready calls p (thread []) := by
  induction rest with
  | nil => exact h
  | cons dst rest ih =>
    refine ih (fun i hi => hp i (List.mem_cons_of_mem _ hi)) ?_
    exact h.send (hp dst List.mem_cons_self) (hstep dst rest)

theorem Ready.returned {calls : List (Fin n × String × Int)}
    (h : Ready calls p (.logWait b)) : Ready calls p .idle := by
  obtain ⟨_,rfl,h'⟩ := h.local (Q := fun th => th = .idle)
    (fun node ht => by simp [act, proceed, ht])
  exact h'

theorem Ready.announced {calls : List (Fin n × String × Int)}
    (h : Ready calls p (.accepted v m (others p))) : Ready calls p .idle := by
  have hsent := Ready.broadcast (.accepted v m)
    (fun dst rest node ht => by simp [act, proceed, ht])
    (fun i => mem_others.mp) h
  obtain ⟨_,rfl,h'⟩ := hsent.local (Q := fun th => th = .logWait true)
    (fun node ht => by simp [act, proceed, ht])
  exact h'.returned

theorem Ready.majorityAccepted {calls : List (Fin n × String × Int)}
    (h : Ready calls p (.majorityAccepted v)) : Ready calls p .idle := by
  obtain ⟨_,rfl,hwritten⟩ := h.local (Q := fun th => th = .logWritten v)
    (fun node ht => by simp [act, proceed, ht])
  obtain ⟨_,⟨m,rfl⟩,hannounced⟩ := hwritten.local
    (Q := fun th => ∃ m, th = .accepted v m (others p))
    (fun node ht => by simp [act, proceed, ht])
  exact hannounced.announced

theorem Ready.majorityPromised {calls : List (Fin n × String × Int)}
    (h : Ready calls p (.majorityPromised v)) : Ready calls p .idle := by
  obtain ⟨_,⟨m,rfl⟩,hproposed⟩ := h.local (Q := fun th => ∃ m, th = .propose v m (others p))
    (fun node ht => by simp [act, proceed, ht])
  have hsent := Ready.broadcast (.propose v m)
    (fun dst rest node ht => by simp [act, proceed, ht])
    (fun i => mem_others.mp) hproposed
  obtain ⟨_,hth,h'⟩ := hsent.local (Q := fun th => th = .majorityAccepted v ∨ th = .logWait false)
    (fun node ht => by simp [act, proceed, ht])
  rcases hth with rfl | rfl
  · exact h'.majorityAccepted
  · exact h'.returned

theorem Ready.called {calls : List (Fin n × String × Int)}
    (h : Ready calls p (.prepare v m (others p))) : Ready calls p .idle := by
  have hsent := Ready.broadcast (.prepare v m)
    (fun dst rest node ht => by simp [act, proceed, ht])
    (fun i => mem_others.mp) h
  obtain ⟨_,hth,h'⟩ := hsent.local (Q := fun th => th = .majorityPromised v ∨ th = .logWait false)
    (fun node ht => by simp [act, proceed, ht])
  rcases hth with rfl | rfl
  · exact h'.majorityPromised
  · exact h'.returned

/-- The calls of a script, given by proposer, argument and clock reading. -/
def scripted (script : List (Fin n × String × Nat)) : List (Fin n × String × Int) :=
  script.map (fun x => (x.1,x.2.1,generateUniqueId x.1 x.2.2))

theorem exists_well_timed (script : List (Fin n × String × Nat))
    (hinc : script.Pairwise (fun x y => x.2.2 < y.2.2)) :
    ∃ s es, Reach (n := n) (holding wellTimed) s es ∧ Settled s ∧ submitted es = scripted script := by
  induction script using List.reverseRecOn with
  | nil => exact ⟨_,[],.start,⟨⟨fun _ _ => rfl,fun _ => rfl⟩,fun _ => rfl⟩,rfl⟩
  | append_singleton script x ih =>
    obtain ⟨p,v,now⟩ := x
    obtain ⟨hinc',_,hlast⟩ := List.pairwise_append.mp hinc
    obtain ⟨s,es,hr,hs,hsub⟩ := ih hinc'
    have hid : ∀ x ∈ submitted es, x.2.2 < generateUniqueId p now := by
      intro x hx
      rw [hsub] at hx
      obtain ⟨y,hy,rfl⟩ := List.mem_map.mp hx
      exact Int.ofNat_lt.mpr (hlast y hy _ List.mem_cons_self)
    have hok : wellTimed es s (allUp,.act p (.startConsensus v now)) = true := by
      simp only [wellTimed, noneDead_allUp, decide_true, Bool.true_and]
      exact decide_eq_true ⟨hs,hid⟩
    have ho : act p (s.nodes p) (.startConsensus v now) = some {
        state := { s.nodes p with
          context := { (s.nodes p).context with roundId := generateUniqueId p now }
          calls := (s.nodes p).calls + 1
          thread := .prepare v (.prepare (generateUniqueId p now)) (others p) }
        events := [.called ((s.nodes p).calls + 1) v (generateUniqueId p now)] } := by
      simp only [act, startConsensus, hs.2 p]
      rfl
    have hstep : (process n).Step allUp s _ _ _ := .act p (Action.startConsensus v now) _ ho
    have hready : Ready (scripted (script ++ [(p,v,now)])) p
        (.prepare v (.prepare (generateUniqueId p now)) (others p)) := by
      refine ⟨_,_,hr.step hok (Process.step_iff.mpr hstep),⟨?_,?_⟩,?_,?_,?_⟩
      · rw [Net.commit_silent _ _ _ rfl]
        exact hs.1.1
      · intro i
        rcases Decidable.em (i = p) with rfl | hne
        · rw [Net.commit_self]
          exact hs.1.2 i
        · rw [Net.commit_other _ _ _ hne]
          exact hs.1.2 i
      · rw [submitted_append, hsub, step_submitted hstep, scripted, scripted, List.map_append]
        rfl
      · rw [Net.commit_self]
      · intro i hne
        rw [Net.commit_other _ _ _ hne]
        exact hs.2 i
    obtain ⟨t,es',hr',hq,hsub',ht,hidle⟩ := hready.called
    refine ⟨t,es',hr',⟨hq,?_⟩,hsub'⟩
    intro i
    rcases Decidable.em (i = p) with rfl | hne
    · exact ht
    · exact hidle i hne

/-- What a completed script leaves behind. -/
structure Replicated (s : Cluster n) (es : History n) (vs : List String) : Prop where
  log : ∀ i, (s.nodes i).log = vs
  context : ∀ i, (s.nodes i).context = {}
  reached : ∀ p c v r, .did (.called c v r) ∈ historyAt p es →
    .did (.returned c true) ∈ historyAt p es
  never : ∀ p c b, .did (.returned c b) ∈ historyAt p es → b = true

/-- Successive leaders with growing ids: the script has a well-timed run to its
end, and each such run leaves all logs equal to the submitted values. -/
theorem leaders_replicate (script : List (Fin n × String × Nat))
    (hinc : script.Pairwise (fun x y => x.2.2 < y.2.2)) :
    (∃ s es, Reach (n := n) (holding wellTimed) s es ∧ Settled s ∧
      submitted es = scripted script) ∧
    ∀ s es, Reach (n := n) (holding wellTimed) s es → Settled s →
      submitted es = scripted script → Replicated s es (script.map (fun x => x.2.1)) := by
  refine ⟨exists_well_timed script hinc,?_⟩
  intro s es hr hs hsub
  have hvalues : values es = script.map (fun x => x.2.1) := by
    rw [values, hsub, scripted, List.map_map]
    rfl
  have hall := (run_standing hr).settled hs
  refine ⟨?_,?_,?_,?_⟩
  · intro i
    rw [(hall i).1.log, hvalues]
  · intro i
    exact (hall i).2.1
  · intro p c v r hm
    obtain ⟨b,hb⟩ := called_returned hr (hs.2 p) hm
    rw [run_returned hr hb] at hb
    exact hb
  · intro p c b hm
    exact run_returned hr hm

theorem leaders_replicate_two : ∃ (s : Cluster 4) (es : History 4),
    Reach (holding wellTimed) s es ∧ Settled s ∧ Replicated s es ["a","b"] := by
  obtain ⟨⟨s,es,hr,hs,hsub⟩,hall⟩ :=
    leaders_replicate (n := 4) [(2,"a",10),(0,"b",18)] (by decide)
  exact ⟨s,es,hr,hs,hall s es hr hs hsub⟩

end Algorep.Proofs
