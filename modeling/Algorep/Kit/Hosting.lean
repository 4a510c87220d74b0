import Algorep.Kit.Network
import Algorep.Kit.Projection

namespace Algorep.Kit

/-! A network whose receivers take a message first and handle it later, seen as one in which
a delivery is a single step. -/

variable {κ ι σ σ' α α' τ μ μ' ε ε' β : Type}

/-- What an action is for the process it hosts: nothing, an action of its own, or the handling
of the message that a receiver has taken. `told` is what `f` reads off the events. -/
inductive ActsFor (P' : Process ι σ' α' τ μ' ε') (i : ι) (core : σ → σ')
    (held : σ → Option (ι × μ')) (view : μ → Option μ') (f : ε' → Option β) (x : σ)
    (out : Outcome ι σ μ ε) (told : List β) : Prop
  | silent (hx : core out.state = core x) (hh : held out.state = held x)
      (hs : projectSend view out.send = none) (ht : told = []) :
      ActsFor P' i core held view f x out told
  | act (a : α') (out' : Outcome ι σ' μ' ε') (ho : P'.act i (core x) a = some out')
      (hx : core out.state = out'.state) (hh : held out.state = held x)
      (hs : projectSend view out.send = out'.send) (ht : told = out'.events.filterMap f) :
      ActsFor P' i core held view f x out told
  | handle (src : ι) (m : μ') (o : τ) (out' : Outcome ι σ' μ' ε') (hm : held x = some (src,m))
      (ho : P'.handle i (core x) src m o = some out') (hx : core out.state = out'.state)
      (hh : held out.state = none) (hs : projectSend view out.send = out'.send)
      (ht : told = out'.events.filterMap f) : ActsFor P' i core held view f x out told

/-- In the lane `k`, the processes of `P` do what those of `P'` do. `J` is an invariant that
the hosts are known to keep. -/
structure LaneProcess.Hosts (P : LaneProcess κ ι σ α μ ε) (P' : Process ι σ' α' τ μ' ε') (k : κ)
    (core : σ → σ') (held : σ → Option (ι × μ')) (view : μ → Option μ') (J : ι → σ → Prop)
    (f : ι → ε' → Option β) (told : σ → α → List β) : Prop where
  core_start : ∀ i, P'.start i = core (P.start i)
  held_start : ∀ i, held (P.start i) = none
  lane : ∀ m m', view m = some m' → P.lane m = k
  act : ∀ i x a out, J i x → P.act i x a = some out →
    ActsFor P' i core held view (f i) x out (told x a)
  accept : ∀ i x src m y, J i x → P.accept i x (P.lane m) src m = some y → core y = core x ∧
    match view m with
    | some m' => held x = none ∧ held y = some (src,m')
    | none => held y = held x

/-- The messages of `a` that a receiver has taken and not handled yet. -/
def heldFrom [DecidableEq ι] (held : Option (ι × μ)) (a : ι) : List μ :=
  match held with
  | some (src,m) => if src = a then [m] else []
  | none => []

/-- The hosted network. -/
structure Hosted [DecidableEq ι] (core : σ → σ') (held : σ → Option (ι × μ'))
    (view : μ → Option μ') (k : κ) (s : LaneNet κ ι σ μ) (c : Net ι σ' μ') : Prop where
  nodes : ∀ i, c.nodes i = core (s.nodes i)
  chan : ∀ a b, c.chan a b = heldFrom (held (s.nodes b)) a ++ (s.chan k a b).filterMap view

/-- What the actions of one process have told. -/
def toldBy [DecidableEq ι] (told : σ → α → List β) (i : ι)
    (es : List (LaneNet κ ι σ μ × LaneLabel κ ι α)) : List β :=
  es.flatMap (fun x => match x.2 with
    | .act j a => if j = i then told (x.1.nodes j) a else []
    | .receive _ _ _ => [])

section Told
variable [DecidableEq ι] (told : σ → α → List β) (i : ι)

@[simp] theorem toldBy_append (es es' : List (LaneNet κ ι σ μ × LaneLabel κ ι α)) :
    toldBy told i (es ++ es') = toldBy told i es ++ toldBy told i es' :=
  List.flatMap_append

theorem toldBy_act (s : LaneNet κ ι σ μ) (j : ι) (a : α) :
    toldBy told i [(s,.act j a)] = if j = i then told (s.nodes j) a else [] := by
  simp [toldBy]

@[simp] theorem toldBy_receive (s : LaneNet κ ι σ μ) (k : κ) (src dst : ι) :
    toldBy told i [(s,.receive k src dst)] = [] := rfl

end Told

variable [DecidableEq ι] {P : LaneProcess κ ι σ α μ ε} {P' : Process ι σ' α' τ μ' ε'} {k : κ}
  {core : σ → σ'} {held : σ → Option (ι × μ')} {view : μ → Option μ'} {J : ι → σ → Prop}
  {f : ι → ε' → Option β} {told : σ → α → List β} {s t : LaneNet κ ι σ μ} {c : Net ι σ' μ'}

/-- The message that is handled has been first in its channel. -/
theorem Hosted.first (hc : Hosted core held view k s c) (hm : held (s.nodes i) = some (src,m)) :
    c.chan src i = m::(s.chan k src i).filterMap view := by
  rw [hc.chan, hm]
  simp [heldFrom]

variable [DecidableEq κ]

namespace LaneProcess

/-- What a host hands over in the lane is what the hosted process sends. -/
theorem Hosts.handed (h : P.Hosts P' k core held view J f told) {out : Outcome ι σ μ ε}
    {out' : Outcome ι σ' μ' ε'} (hs : projectSend view out.send = out'.send) (b : ι) :
    (LaneNet.handed P.lane out k b).filterMap view = sentTo b out'.trace := by
  rw [sentTo_trace, ← hs]
  unfold LaneNet.handed projectSend
  cases out.send with
  | none => rfl
  | some p =>
    obtain ⟨dst,m⟩ := p
    cases hv : view m with
    | none =>
      simp only [hv, Option.bind_some, Option.map_none, Option.bind_none, Option.toList_none]
      split <;> simp [hv]
    | some m' =>
      by_cases hd : dst = b <;> simp [hv, hd, h.lane m m' hv]

theorem Hosts.commit (h : P.Hosts P' k core held view J f told) (hc : Hosted core held view k s c)
    {out : Outcome ι σ μ ε} {out' : Outcome ι σ' μ' ε'} (hx : core out.state = out'.state)
    (hh : held out.state = held (s.nodes i)) (hs : projectSend view out.send = out'.send) :
    Hosted core held view k (s.commit P.lane i out) (c.commit allUp i out') := by
  refine ⟨?_,?_⟩
  · intro j
    by_cases hj : j = i
    · subst hj
      rw [Net.commit_self, LaneNet.commit_self, hx]
    · rw [Net.commit_other _ _ _ hj, LaneNet.commit_other _ _ _ hj]
      exact hc.nodes j
  · intro a b
    have hheld : held ((s.commit P.lane i out).nodes b) = held (s.nodes b) := by
      by_cases hb : b = i
      · subst hb
        rwa [LaneNet.commit_self]
      · rw [LaneNet.commit_other _ _ _ hb]
    rw [Net.commit_chan, hc.chan, hheld]
    by_cases ha : a = i
    · subst ha
      rw [LaneNet.commit_chan_self, List.filterMap_append, h.handed hs]
      simp [allUp]
    · rw [LaneNet.commit_chan_other _ _ _ _ _ ha]
      simp [ha]

/-- The hosted process has nothing to do with what its host does. -/
theorem Hosts.commit_silent (h : P.Hosts P' k core held view J f told)
    (hc : Hosted core held view k s c) {out : Outcome ι σ μ ε}
    (hx : core out.state = core (s.nodes i)) (hh : held out.state = held (s.nodes i))
    (hs : projectSend view out.send = none) :
    Hosted core held view k (s.commit P.lane i out) c := by
  have hout : Hosted core held view k (s.commit P.lane i out)
      (c.commit allUp i { state := core (s.nodes i) }) := h.commit hc hx hh hs
  have hsame : c.commit allUp i ({ state := core (s.nodes i) } : Outcome ι σ' μ' ε') = c := by
    unfold Net.commit Net.setNode
    dsimp only
    rw [← hc.nodes i, Function.update_eq_self]
  rwa [hsame] at hout

theorem Hosts.commit_handled (h : P.Hosts P' k core held view J f told)
    (hc : Hosted core held view k s c) {out : Outcome ι σ μ ε} {out' : Outcome ι σ' μ' ε'}
    (hm : held (s.nodes i) = some (src,m)) (hx : core out.state = out'.state)
    (hh : held out.state = none) (hs : projectSend view out.send = out'.send) :
    Hosted core held view k (s.commit P.lane i out)
      ((c.setChan src i ((s.chan k src i).filterMap view)).commit allUp i out') := by
  refine ⟨?_,?_⟩
  · intro j
    by_cases hj : j = i
    · subst hj
      rw [Net.commit_self, LaneNet.commit_self, hx]
    · rw [Net.commit_other _ _ _ hj, LaneNet.commit_other _ _ _ hj, Net.setChan_nodes]
      exact hc.nodes j
  · intro a b
    have hrest : (c.setChan src i ((s.chan k src i).filterMap view)).chan a b =
        heldFrom (held ((s.commit P.lane i out).nodes b)) a ++ (s.chan k a b).filterMap view := by
      rw [Net.setChan_chan]
      by_cases hb : b = i
      · subst hb
        rw [LaneNet.commit_self, hh]
        by_cases ha : a = src
        · simp [ha, heldFrom]
        · rw [if_neg (by simp [ha]), hc.chan, hm]
          simp [heldFrom, Ne.symm ha]
      · rw [if_neg (by simp [hb]), LaneNet.commit_other _ _ _ hb]
        exact hc.chan a b
    rw [Net.commit_chan, hrest]
    by_cases ha : a = i
    · subst ha
      rw [LaneNet.commit_chan_self, List.filterMap_append, h.handed hs]
      simp [allUp]
    · rw [LaneNet.commit_chan_other _ _ _ _ _ ha]
      simp [ha]

/-- Taking a message is no step of the hosted network. -/
theorem Hosts.take (h : P.Hosts P' k core held view J f told) (hc : Hosted core held view k s c)
    (hj : J dst (s.nodes dst)) (hlane : s.InLane P.lane) (hchan : s.chan k' src dst = m::rest)
    (hx : P.accept dst (s.nodes dst) k' src m = some x) :
    Hosted core held view k (s.take k' src dst rest x) c := by
  have hk : P.lane m = k' := hlane k' src dst m (hchan ▸ List.mem_cons_self)
  subst hk
  obtain ⟨hcore,hheld⟩ := h.accept dst _ src m x hj hx
  refine ⟨?_,?_⟩
  · intro j
    by_cases hjd : j = dst
    · subst hjd
      rw [LaneNet.take_self, hcore]
      exact hc.nodes j
    · rw [LaneNet.take_other _ _ _ _ _ hjd]
      exact hc.nodes j
  · intro a b
    rw [hc.chan, LaneNet.take_chan]
    by_cases hb : b = dst
    · subst hb
      rw [LaneNet.take_self]
      cases hv : view m with
      | none =>
        rw [hv] at hheld
        rw [hheld]
        split
        · rename_i hk
          rw [hk.1, hk.2.1, hchan, List.filterMap_cons_none hv]
        · rfl
      | some m' =>
        rw [hv] at hheld
        rw [hheld.1, hheld.2]
        have hk := h.lane m m' hv
        by_cases ha : a = src
        · subst ha
          rw [hk] at hchan
          simp [heldFrom, hk, hchan, hv]
        · simp [heldFrom, ha, Ne.symm ha]
    · rw [LaneNet.take_other _ _ _ _ _ hb, if_neg (by simp [hb])]

/-- A step of the hosts is a step of the hosted network, or none. -/
theorem Hosts.step (h : P.Hosts P' k core held view J f told) (hc : Hosted core held view k s c)
    (hj : ∀ i, J i (s.nodes i)) (hlane : s.InLane P.lane) (hs : P.Step s l t e) :
    (Hosted core held view k t c ∧ ∀ i, toldBy told i [(s,l)] = []) ∨
    ∃ l' c' hist, P'.step allUp c l' = some (c',hist) ∧ Hosted core held view k t c' ∧
      ∀ i, eventsOf (f i) (historyAt i hist) = toldBy told i [(s,l)] := by
  cases hs with
  | receive k' src dst m rest x hchan hx =>
    exact .inl ⟨h.take hc (hj dst) hlane hchan hx,fun i => rfl⟩
  | act i a out ho =>
    cases h.act i _ a out (hj i) ho with
    | silent hx hh hsend ht =>
      refine .inl ⟨h.commit_silent hc hx hh hsend,?_⟩
      intro j
      rw [toldBy_act, ht]
      split <;> rfl
    | act a' out' ho' hx hh hsend ht =>
      have hstep : P'.Step allUp c (.act i a') _ _ := .act i a' out' (hc.nodes i ▸ ho')
      refine .inr ⟨_,_,_,Process.step_iff.mpr hstep,h.commit hc hx hh hsend,?_⟩
      intro j
      rw [toldBy_act, historyAt_tag, ht]
      split
      · rename_i hi
        rw [eventsOf_trace, hi]
      · rfl
    | handle src m o out' hm ho' hx hh hsend ht =>
      have hchan := hc.first hm
      have hstep : P'.Step allUp c (.deliver src i o) _ _ :=
        .handle src i o m _ out' hchan rfl (hc.nodes i ▸ ho')
      refine .inr ⟨_,_,_,Process.step_iff.mpr hstep,h.commit_handled hc hm hx hh hsend,?_⟩
      intro j
      rw [toldBy_act, historyAt_cons, historyAt_tag, ht]
      split
      · rename_i hi
        rw [eventsOf_received, eventsOf_trace, hi]
      · rfl

/-- Every run of the hosts is one of the hosted network with all links up, and tells of it
what the events of the latter say. -/
theorem Hosts.reach (h : P.Hosts P' k core held view J f told)
    {ok : List (LaneNet κ ι σ μ × LaneLabel κ ι α) → LaneNet κ ι σ μ → LaneLabel κ ι α → Prop}
    (hinv : ∀ s es, P.network.traced.Reach ok s es → (∀ i, J i (s.nodes i)) ∧ s.InLane P.lane)
    (hr : P.network.traced.Reach ok s es) :
    ∃ c hist, P'.network.Reach (fun _ _ l => l.1 = allUp) c hist ∧ Hosted core held view k s c ∧
      ∀ i, eventsOf (f i) (historyAt i hist) = toldBy told i es := by
  induction hr with
  | start =>
    refine ⟨P'.network.start,[],.start,⟨h.core_start,?_⟩,fun i => rfl⟩
    intro a b
    have hnone : held (P.start b) = none := h.held_start b
    simp only [Machine.traced, Process.network, network, hnone, heldFrom, List.filterMap_nil,
      List.append_nil]
  | step hr hok hs ih =>
    obtain ⟨c,hist,hrc,hc,htold⟩ := ih
    obtain ⟨rfl,e,he⟩ := Machine.traced_step hs
    obtain ⟨hj,hlane⟩ := hinv _ _ hr
    rcases h.step hc hj hlane (step_of_eq he) with ⟨hc',hnone⟩ | ⟨l',c',hist',hs',hc',hnew⟩
    · refine ⟨c,hist,hrc,hc',?_⟩
      intro i
      rw [toldBy_append, hnone i, List.append_nil]
      exact htold i
    · refine ⟨c',hist ++ hist',hrc.step (a := (allUp,l')) rfl hs',hc',?_⟩
      intro i
      rw [historyAt_append, eventsOf_append, htold i, hnew i, toldBy_append]

end LaneProcess

end Algorep.Kit
