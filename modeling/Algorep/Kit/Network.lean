import Algorep.Kit.Machine
import Mathlib.Logic.Function.Basic

namespace Algorep.Kit

/-- What one atomic action of a process leaves behind: it sends at most one
message, and `events` names what it did for the history. -/
structure Outcome (ι σ μ ε : Type) where
  state : σ
  send : Option (ι × μ) := none
  events : List ε := []

/-- The program of every process: steps of its own threads, and the handling of
one received message. `τ` is what the environment chooses in a handler. -/
structure Process (ι σ α τ μ ε : Type) where
  start : ι → σ
  act : ι → σ → α → Option (Outcome ι σ μ ε)
  handle : ι → σ → ι → μ → τ → Option (Outcome ι σ μ ε)

inductive Obs (ι μ ε : Type)
  | did (e : ε)
  | sent (dst : ι) (m : μ)
  | received (src : ι) (m : μ)
deriving DecidableEq

inductive Input (ι α τ μ : Type)
  | act (a : α)
  | handle (src : ι) (m : μ) (o : τ)

def Outcome.trace (out : Outcome ι σ μ ε) : List (Obs ι μ ε) :=
  out.events.map .did ++ (out.send.map (fun p => Obs.sent p.1 p.2)).toList

/-- The runs of one process against arbitrary senders: any message from anybody
may be handed to it at any time. -/
inductive LocalRun (P : Process ι σ α τ μ ε) (ok : σ → Input ι α τ μ → Prop) (i : ι) :
    σ → List (Obs ι μ ε) → Prop
  | start : LocalRun P ok i (P.start i) []
  | act : LocalRun P ok i s h → ok s (.act a) → P.act i s a = some out →
      LocalRun P ok i out.state (h ++ out.trace)
  | handle : LocalRun P ok i s h → ok s (.handle j m o) → P.handle i s j m o = some out →
      LocalRun P ok i out.state (h ++ .received j m :: out.trace)

/-- The guard of a process that takes whatever comes. -/
def anyInput : σ → Input ι α τ μ → Prop := fun _ _ => True

theorem LocalRun.mono {P : Process ι σ α τ μ ε} {ok ok' : σ → Input ι α τ μ → Prop}
    (hr : LocalRun P ok i s h) (hm : ∀ s x, ok s x → ok' s x) : LocalRun P ok' i s h := by
  induction hr with
  | start => exact .start
  | act _ hok ho ih => exact .act ih (hm _ _ hok) ho
  | handle _ hok ho ih => exact .handle ih (hm _ _ hok) ho

/-- What a reading of the events makes of a history. -/
def eventsOf (f : ε → Option β) (h : List (Obs ι μ ε)) : List β :=
  h.filterMap (fun o => match o with
    | .did e => f e
    | _ => none)

@[simp] theorem eventsOf_nil (f : ε → Option β) : eventsOf f ([] : List (Obs ι μ ε)) = [] := rfl

@[simp] theorem eventsOf_append (f : ε → Option β) (h h' : List (Obs ι μ ε)) :
    eventsOf f (h ++ h') = eventsOf f h ++ eventsOf f h' :=
  List.filterMap_append

@[simp] theorem eventsOf_received (f : ε → Option β) (c : ι) (m : μ) (h : List (Obs ι μ ε)) :
    eventsOf f (.received c m::h) = eventsOf f h := rfl

@[simp] theorem eventsOf_trace (f : ε → Option β) (out : Outcome ι σ μ ε) :
    eventsOf f out.trace = out.events.filterMap f := by
  simp only [eventsOf, Outcome.trace, List.filterMap_append, List.filterMap_map]
  cases out.send <;> simp

theorem mem_eventsOf {f : ε → Option β} {h : List (Obs ι μ ε)} :
    x ∈ eventsOf f h ↔ ∃ e, .did e ∈ h ∧ f e = some x := by
  simp only [eventsOf, List.mem_filterMap]
  constructor
  · rintro ⟨o,hm,ho⟩
    cases o with
    | did e => exact ⟨e,hm,ho⟩
    | sent _ _ | received _ _ => simp at ho
  · rintro ⟨e,hm,he⟩
    exact ⟨_,hm,he⟩

section History
variable [DecidableEq ι]

def sentTo (b : ι) (h : List (Obs ι μ ε)) : List μ :=
  h.filterMap (fun o => match o with
    | .sent d m => if d = b then some m else none
    | _ => none)

def receivedFrom (a : ι) (h : List (Obs ι μ ε)) : List μ :=
  h.filterMap (fun o => match o with
    | .received c m => if c = a then some m else none
    | _ => none)

/-- The part of a network history that happened at one process. -/
def historyAt (i : ι) (es : List (ι × Obs ι μ ε)) : List (Obs ι μ ε) :=
  es.filterMap (fun p => if p.1 = i then some p.2 else none)

@[simp] theorem historyAt_nil (i : ι) : historyAt i ([] : List (ι × Obs ι μ ε)) = [] := rfl

theorem historyAt_append (i : ι) (es es' : List (ι × Obs ι μ ε)) :
    historyAt i (es ++ es') = historyAt i es ++ historyAt i es' :=
  List.filterMap_append

theorem historyAt_tag (i j : ι) (h : List (Obs ι μ ε)) :
    historyAt i (h.map (fun o => (j,o))) = if j = i then h else [] := by
  by_cases hj : j = i <;> simp [historyAt, List.filterMap_map, hj]

theorem historyAt_cons (i j : ι) (o : Obs ι μ ε) (es : List (ι × Obs ι μ ε)) :
    historyAt i ((j,o)::es) = if j = i then o::historyAt i es else historyAt i es := by
  by_cases hj : j = i <;> simp [historyAt, hj]

theorem mem_historyAt {i : ι} {o : Obs ι μ ε} {es : List (ι × Obs ι μ ε)} :
    o ∈ historyAt i es ↔ (i,o) ∈ es := by
  simp only [historyAt, List.mem_filterMap, Option.ite_none_right_eq_some, Option.some.injEq]
  constructor
  · rintro ⟨⟨j,o'⟩,hm,rfl,rfl⟩
    exact hm
  · intro hm
    exact ⟨(i,o),hm,rfl,rfl⟩

@[simp] theorem sentTo_append (b : ι) (h h' : List (Obs ι μ ε)) :
    sentTo b (h ++ h') = sentTo b h ++ sentTo b h' :=
  List.filterMap_append

@[simp] theorem receivedFrom_append (a : ι) (h h' : List (Obs ι μ ε)) :
    receivedFrom a (h ++ h') = receivedFrom a h ++ receivedFrom a h' :=
  List.filterMap_append

@[simp] theorem sentTo_nil (b : ι) : sentTo b ([] : List (Obs ι μ ε)) = [] := rfl

@[simp] theorem receivedFrom_nil (a : ι) : receivedFrom a ([] : List (Obs ι μ ε)) = [] := rfl

@[simp] theorem sentTo_received (b c : ι) (m : μ) (h : List (Obs ι μ ε)) :
    sentTo b (.received c m::h) = sentTo b h := rfl

@[simp] theorem receivedFrom_received (a c : ι) (m : μ) (h : List (Obs ι μ ε)) :
    receivedFrom a (.received c m::h) =
      if c = a then m::receivedFrom a h else receivedFrom a h := by
  by_cases hc : c = a <;> simp [receivedFrom, hc]

@[simp] theorem receivedFrom_trace (a : ι) (out : Outcome ι σ μ ε) :
    receivedFrom a out.trace = [] := by
  simp only [receivedFrom, Outcome.trace, List.filterMap_append, List.filterMap_map]
  cases out.send <;> simp

theorem sentTo_trace (b : ι) (out : Outcome ι σ μ ε) :
    sentTo b out.trace = (out.send.bind (fun p => if p.1 = b then some p.2 else none)).toList := by
  simp only [sentTo, Outcome.trace, List.filterMap_append, List.filterMap_map]
  cases out.send with
  | none => simp
  | some p => by_cases hp : p.1 = b <;> simp [hp]

theorem mem_sentTo {b : ι} {m : μ} {h : List (Obs ι μ ε)} :
    m ∈ sentTo b h ↔ .sent b m ∈ h := by
  simp only [sentTo, List.mem_filterMap]
  constructor
  · rintro ⟨o,hm,ho⟩
    cases o with
    | sent d x =>
      simp only [Option.ite_none_right_eq_some, Option.some.injEq] at ho
      rcases ho with ⟨rfl,rfl⟩
      exact hm
    | did _ | received _ _ => simp at ho
  · intro hm
    exact ⟨_,hm,by simp⟩

theorem mem_receivedFrom {a : ι} {m : μ} {h : List (Obs ι μ ε)} :
    m ∈ receivedFrom a h ↔ .received a m ∈ h := by
  simp only [receivedFrom, List.mem_filterMap]
  constructor
  · rintro ⟨o,hm,ho⟩
    cases o with
    | received c x =>
      simp only [Option.ite_none_right_eq_some, Option.some.injEq] at ho
      rcases ho with ⟨rfl,rfl⟩
      exact hm
    | did _ | sent _ _ => simp at ho
  · intro hm
    exact ⟨_,hm,by simp⟩

end History

/-- One first-in first-out channel for each ordered pair of processes. -/
structure Net (ι σ μ : Type) where
  nodes : ι → σ
  chan : ι → ι → List μ

/-- The links of one moment: `up a b` is what `a` believes about `b`, and decides
both whether `a` sends to `b` and whether `a` handles what `b` sent. -/
abbrev Links (ι : Type) := ι → ι → Bool

def allUp : Links ι := fun _ _ => true

namespace Net
variable [DecidableEq ι]

def setChan (s : Net ι σ μ) (a b : ι) (q : List μ) : Net ι σ μ :=
  { s with chan := Function.update s.chan a (Function.update (s.chan a) b q) }

def setNode (s : Net ι σ μ) (i : ι) (x : σ) : Net ι σ μ :=
  { s with nodes := Function.update s.nodes i x }

/-- A message handed over while the link is down is dropped by the sender. -/
def commit (s : Net ι σ μ) (up : Links ι) (i : ι) (out : Outcome ι σ μ ε) : Net ι σ μ :=
  match out.send with
  | none => s.setNode i out.state
  | some (dst,m) =>
    if up i dst then (s.setNode i out.state).setChan i dst (s.chan i dst ++ [m])
    else s.setNode i out.state

@[simp] theorem setNode_chan (s : Net ι σ μ) (i : ι) (x : σ) : (s.setNode i x).chan = s.chan := rfl

@[simp] theorem setChan_nodes (s : Net ι σ μ) (a b : ι) (q : List μ) :
    (s.setChan a b q).nodes = s.nodes := rfl

theorem setChan_chan (s : Net ι σ μ) (a b : ι) (q : List μ) (c d : ι) :
    (s.setChan a b q).chan c d = if c = a ∧ d = b then q else s.chan c d := by
  by_cases hc : c = a
  · subst c
    by_cases hd : d = b <;> simp [setChan, hd]
  · simp [setChan, hc]

theorem commit_nodes (s : Net ι σ μ) (up : Links ι) (i : ι) (out : Outcome ι σ μ ε) :
    (s.commit up i out).nodes = Function.update s.nodes i out.state := by
  unfold commit
  split
  · rfl
  · split <;> rfl

@[simp] theorem commit_self (s : Net ι σ μ) (up : Links ι) (i : ι) (out : Outcome ι σ μ ε) :
    (s.commit up i out).nodes i = out.state := by
  simp [commit_nodes]

theorem commit_other (s : Net ι σ μ) (up : Links ι) (out : Outcome ι σ μ ε) (h : j ≠ i) :
    (s.commit up i out).nodes j = s.nodes j := by
  simp [commit_nodes, h]

theorem commit_silent (s : Net ι σ μ) (up : Links ι) (i : ι) {out : Outcome ι σ μ ε}
    (h : out.send = none) : (s.commit up i out).chan = s.chan := by
  rw [commit, h, setNode_chan]

/-- A step of `i` extends only channels leaving `i`, by what it handed over
towards a link that is up. -/
theorem commit_chan (s : Net ι σ μ) (up : Links ι) (i : ι) (out : Outcome ι σ μ ε) (a b : ι) :
    (s.commit up i out).chan a b =
      s.chan a b ++ if a = i ∧ up i b then sentTo b out.trace else [] := by
  rw [sentTo_trace]
  unfold commit
  cases hs : out.send with
  | none => simp
  | some p =>
    obtain ⟨dst,m⟩ := p
    by_cases hb : dst = b
    · subst hb
      by_cases hu : up i dst = true
      · by_cases ha : a = i
        · subst ha; simp [hu, setChan_chan]
        · simp [hu, ha, setChan_chan]
      · simp [hu]
    · have hb' : b ≠ dst := fun he => hb he.symm
      by_cases hu : up i dst = true <;> simp [hu, hb, hb', setChan_chan]

end Net

inductive Label (ι α τ : Type)
  | act (i : ι) (a : α)
  | deliver (src dst : ι) (o : τ)

namespace Process
variable [DecidableEq ι]

/-- Delivery takes the head of a channel. With the link down at the receiver the
message is consumed without being handled. -/
def step (P : Process ι σ α τ μ ε) (up : Links ι) (s : Net ι σ μ) :
    Label ι α τ → Option (Net ι σ μ × List (ι × Obs ι μ ε))
  | .act i a => (P.act i (s.nodes i) a).map (fun out =>
      (s.commit up i out,out.trace.map (fun o => (i,o))))
  | .deliver src dst o =>
    match s.chan src dst with
    | [] => none
    | m::rest =>
      if up dst src then
        (P.handle dst (s.nodes dst) src m o).map (fun out =>
          ((s.setChan src dst rest).commit up dst out,
            (dst,.received src m)::out.trace.map (fun o => (dst,o))))
      else some (s.setChan src dst rest,[])

def network (P : Process ι σ α τ μ ε) :
    Machine (Net ι σ μ) (Links ι × Label ι α τ) (ι × Obs ι μ ε) where
  start := { nodes := P.start, chan := fun _ _ => [] }
  step s l := P.step l.1 s l.2

/-- Everything a step of the network can be. -/
inductive Step (P : Process ι σ α τ μ ε) (up : Links ι) (s : Net ι σ μ) :
    Label ι α τ → Net ι σ μ → List (ι × Obs ι μ ε) → Prop
  | act (i : ι) (a : α) (out : Outcome ι σ μ ε) (ho : P.act i (s.nodes i) a = some out) :
      Step P up s (.act i a) (s.commit up i out) (out.trace.map (fun o => (i,o)))
  | handle (src dst : ι) (o : τ) (m : μ) (rest : List μ) (out : Outcome ι σ μ ε)
      (hc : s.chan src dst = m::rest) (hu : up dst src = true)
      (ho : P.handle dst (s.nodes dst) src m o = some out) :
      Step P up s (.deliver src dst o) ((s.setChan src dst rest).commit up dst out)
        ((dst,.received src m)::out.trace.map (fun o => (dst,o)))
  | discard (src dst : ι) (o : τ) (m : μ) (rest : List μ)
      (hc : s.chan src dst = m::rest) (hu : up dst src = false) :
      Step P up s (.deliver src dst o) (s.setChan src dst rest) []

theorem step_iff {P : Process ι σ α τ μ ε} {up : Links ι} {s t : Net ι σ μ}
    {l : Label ι α τ} {e : List (ι × Obs ι μ ε)} :
    P.step up s l = some (t,e) ↔ P.Step up s l t e := by
  constructor
  · intro h
    cases l with
    | act i a =>
      simp only [step, Option.map_eq_some_iff, Prod.mk.injEq] at h
      obtain ⟨out,ho,rfl,rfl⟩ := h
      exact .act i a out ho
    | deliver src dst o =>
      simp only [step] at h
      split at h
      · contradiction
      · rename_i m rest hc
        split at h
        · rename_i hu
          simp only [Option.map_eq_some_iff, Prod.mk.injEq] at h
          obtain ⟨out,ho,rfl,rfl⟩ := h
          exact .handle src dst o m rest out hc hu ho
        · rename_i hu
          simp only [Option.some.injEq, Prod.mk.injEq] at h
          rcases h with ⟨rfl,rfl⟩
          exact .discard src dst o m rest hc (by simpa using hu)
  · intro h
    cases h with
    | act i a out ho => simp [step, ho]
    | handle src dst o m rest out hc hu ho => simp [step, hc, hu, ho]
    | discard src dst o m rest hc hu => simp [step, hc, hu]

/-- Guards of a network run that only let a process take inputs its own guard allows. -/
def Respects (ok : List (ι × Obs ι μ ε) → Net ι σ μ → Links ι × Label ι α τ → Prop)
    (i : ι) (lok : σ → Input ι α τ μ → Prop) : Prop :=
  (∀ es s up a, ok es s (up,.act i a) → lok (s.nodes i) (.act a)) ∧
  (∀ es s up src o m rest, ok es s (up,.deliver src i o) → s.chan src i = m::rest →
    up i src = true → lok (s.nodes i) (.handle src m o))

/-- Each process of a network run has made a run of its own. -/
theorem local_run {P : Process ι σ α τ μ ε}
    {ok : List (ι × Obs ι μ ε) → Net ι σ μ → Links ι × Label ι α τ → Prop}
    {lok : σ → Input ι α τ μ → Prop} (hok : Respects ok i lok)
    (hr : P.network.Reach ok s es) : LocalRun P lok i (s.nodes i) (historyAt i es) := by
  induction hr with
  | start => exact .start
  | @step s es l t e _ hg hs ih =>
    obtain ⟨up,l⟩ := l
    rw [historyAt_append]
    cases step_iff.mp hs with
    | act j a out ho =>
      rw [historyAt_tag]
      by_cases hj : j = i
      · subst hj
        simpa using .act ih (hok.1 _ _ _ _ hg) ho
      · simpa [hj, Net.commit_other _ _ _ (Ne.symm hj)] using ih
    | handle src dst o m rest out hc hu ho =>
      rw [historyAt_cons, historyAt_tag]
      by_cases hj : dst = i
      · subst hj
        simpa using .handle ih (hok.2 _ _ _ _ _ _ _ hg hc hu) ho
      · simpa [hj, Net.commit_other _ _ _ (Ne.symm hj)] using ih
    | discard src dst o m rest hc hu => simpa using ih

/-- One step seen from one channel: what it received followed by what it leaves
in flight comes from what was in flight followed by what it handed over. -/
theorem Step.fifo {P : Process ι σ α τ μ ε} (h : P.Step up s l t e) (a b : ι) :
    (receivedFrom a (historyAt b e) ++ t.chan a b).Sublist
      (s.chan a b ++ sentTo b (historyAt a e)) := by
  cases h with
  | act i x out ho =>
    simp only [historyAt_tag, Net.commit_chan]
    have hr : receivedFrom a (if i = b then out.trace else []) = [] := by
      split <;> simp
    rw [hr, List.nil_append]
    refine (List.Sublist.refl _).append ?_
    by_cases hi : i = a
    · subst hi
      by_cases hu : up i b = true <;> simp [hu]
    · simp [hi, Ne.symm hi]
  | handle src dst o m rest out hc hu ho =>
    simp only [historyAt_cons, historyAt_tag, Net.commit_chan, Net.setChan_chan]
    rw [← List.append_assoc]
    refine List.Sublist.append ?_ ?_
    · by_cases hd : dst = b
      · subst hd
        by_cases hs : src = a
        · subst hs; simp [hc]
        · simp [hs, Ne.symm hs]
      · simp [hd, Ne.symm hd]
    · by_cases hd : dst = a
      · subst hd
        by_cases hu : up dst b = true <;> simp [hu]
      · simp [hd, Ne.symm hd]
  | discard src dst o m rest hc hu =>
    simp only [historyAt_nil, receivedFrom_nil, sentTo_nil, List.nil_append, List.append_nil,
      Net.setChan_chan]
    split
    · rename_i hab
      rcases hab with ⟨rfl,rfl⟩
      simp [hc]
    · exact List.Sublist.refl _

theorem Step.fifo_exact {P : Process ι σ α τ μ ε} (h : P.Step allUp s l t e) (a b : ι) :
    receivedFrom a (historyAt b e) ++ t.chan a b =
      s.chan a b ++ sentTo b (historyAt a e) := by
  cases h with
  | act i x out ho =>
    simp only [historyAt_tag, Net.commit_chan]
    have hr : receivedFrom a (if i = b then out.trace else []) = [] := by
      split <;> simp
    rw [hr, List.nil_append]
    by_cases hi : i = a
    · simp [hi, allUp]
    · simp [hi, Ne.symm hi]
  | handle src dst o m rest out hc hu ho =>
    simp only [historyAt_cons, historyAt_tag, Net.commit_chan, Net.setChan_chan]
    by_cases hd : dst = b
    · subst hd
      by_cases hs : src = a
      · subst hs
        by_cases hd : dst = src
        · subst hd; simp [hc, allUp]
        · simp [hc, hd, Ne.symm hd]
      · by_cases hd : dst = a
        · subst hd; simp [hs, Ne.symm hs, allUp]
        · simp [hs, Ne.symm hs, hd, Ne.symm hd]
    · by_cases hd' : dst = a
      · subst hd'; simp [hd, Ne.symm hd, allUp]
      · simp [hd, Ne.symm hd, hd', Ne.symm hd']
  | discard src dst o m rest hc hu => simp [allUp] at hu

/-- The first-in first-out law: what was received, followed by what is in
flight, is a subsequence of what was handed over for sending. -/
theorem fifo {P : Process ι σ α τ μ ε}
    {ok : List (ι × Obs ι μ ε) → Net ι σ μ → Links ι × Label ι α τ → Prop}
    (hr : P.network.Reach ok s es) (a b : ι) :
    (receivedFrom a (historyAt b es) ++ s.chan a b).Sublist (sentTo b (historyAt a es)) := by
  induction hr with
  | start => simp [network]
  | @step s es l t e _ _ hs ih =>
    simp only [historyAt_append, receivedFrom_append, sentTo_append, List.append_assoc]
    have h := (List.Sublist.refl (receivedFrom a (historyAt b es))).append
      ((step_iff.mp hs).fifo a b)
    rw [← List.append_assoc _ (s.chan a b)] at h
    exact h.trans (ih.append (List.Sublist.refl _))

/-- With every link up throughout, nothing handed over for sending is lost. -/
theorem fifo_exact {P : Process ι σ α τ μ ε}
    {ok : List (ι × Obs ι μ ε) → Net ι σ μ → Links ι × Label ι α τ → Prop}
    (hup : ∀ es s l, ok es s l → l.1 = allUp)
    (hr : P.network.Reach ok s es) (a b : ι) :
    receivedFrom a (historyAt b es) ++ s.chan a b = sentTo b (historyAt a es) := by
  induction hr with
  | start => simp [network]
  | @step s es l t e _ hok hs ih =>
    obtain ⟨up,l⟩ := l
    have hu := hup _ _ _ hok
    dsimp only at hu
    subst hu
    simp only [historyAt_append, receivedFrom_append, sentTo_append, List.append_assoc]
    rw [(step_iff.mp hs).fifo_exact a b, ← List.append_assoc, ih]

theorem received_was_sent {P : Process ι σ α τ μ ε}
    {ok : List (ι × Obs ι μ ε) → Net ι σ μ → Links ι × Label ι α τ → Prop}
    (hr : P.network.Reach ok s es) (h : .received a m ∈ historyAt b es) :
    .sent b m ∈ historyAt a es :=
  mem_sentTo.mp ((fifo hr a b).subset (List.mem_append_left _ (mem_receivedFrom.mpr h)))

/-- What a step of the network gives process `i` to do. -/
def inputAt (i : ι) (x : Net ι σ μ × Links ι × Label ι α τ) : Option (Input ι α τ μ) :=
  match x.2.2 with
  | .act j a => if j = i then some (.act a) else none
  | .deliver src dst o =>
    if dst = i ∧ x.2.1 dst src = true then
      (x.1.chan src dst).head?.map (fun m => .handle src m o)
    else none

/-- What is made of the inputs of process `i`, from `b` on. -/
def madeOf (f : σ → β → Input ι α τ μ → β) (b : β) (i : ι)
    (es : List (Net ι σ μ × Links ι × Label ι α τ)) : β :=
  es.foldl (fun b x => match inputAt i x with
    | some input => f (x.1.nodes i) b input
    | none => b) b

theorem madeOf_concat (f : σ → β → Input ι α τ μ → β) (b : β) (i : ι)
    (es : List (Net ι σ μ × Links ι × Label ι α τ)) (x : Net ι σ μ × Links ι × Label ι α τ) :
    madeOf f b i (es ++ [x]) = match inputAt i x with
      | some input => f (x.1.nodes i) (madeOf f b i es) input
      | none => madeOf f b i es := by
  rw [madeOf, List.foldl_append]
  rfl

/-- What holds of a process, its history and what is made of its inputs, and is kept by its own
steps, holds in every run. -/
theorem made_invariant {P : Process ι σ α τ μ ε} {f : σ → β → Input ι α τ μ → β} {b : β} {i : ι}
    {ok : List (Net ι σ μ × Links ι × Label ι α τ) → Net ι σ μ → Links ι × Label ι α τ → Prop}
    {J : σ → List (Obs ι μ ε) → β → Prop} (hstart : J (P.start i) [] b)
    (hact : ∀ es s up a out, P.network.traced.Reach ok s es → ok es s (up,.act i a) →
      P.act i (s.nodes i) a = some out →
      J (s.nodes i) (historyAt i (P.network.history es)) (madeOf f b i es) →
      J out.state (historyAt i (P.network.history es) ++ out.trace)
        (f (s.nodes i) (madeOf f b i es) (.act a)))
    (hhandle : ∀ es s up src o m rest out, P.network.traced.Reach ok s es →
      ok es s (up,.deliver src i o) → s.chan src i = m::rest → up i src = true →
      P.handle i (s.nodes i) src m o = some out →
      J (s.nodes i) (historyAt i (P.network.history es)) (madeOf f b i es) →
      J out.state (historyAt i (P.network.history es) ++ .received src m::out.trace)
        (f (s.nodes i) (madeOf f b i es) (.handle src m o)))
    (hr : P.network.traced.Reach ok s es) :
    J (s.nodes i) (historyAt i (P.network.history es)) (madeOf f b i es) := by
  induction hr with
  | start => exact hstart
  | @step s es l t x hr hok hs ih =>
    obtain ⟨rfl,e,he⟩ := Machine.traced_step hs
    obtain ⟨up,l⟩ := l
    rw [Machine.history_concat es he, historyAt_append, madeOf_concat]
    cases step_iff.mp he with
    | act j a out ho =>
      rw [historyAt_tag]
      by_cases hj : j = i
      · subst hj
        simpa [inputAt] using hact es s up a out hr hok ho ih
      · simpa [inputAt, hj, Net.commit_other _ _ _ (Ne.symm hj)] using ih
    | handle src dst o m rest out hc hu ho =>
      rw [historyAt_cons, historyAt_tag]
      by_cases hj : dst = i
      · subst hj
        have hup : up dst src = true := hu
        simpa [inputAt, hc, hup] using hhandle es s up src o m rest out hr hok hc hu ho ih
      · simpa [inputAt, hj, Net.commit_other _ _ _ (Ne.symm hj)] using ih
    | discard src dst o m rest hc hu =>
      have hup : up dst src = false := hu
      by_cases hj : dst = i
      · subst hj
        simpa [inputAt, hup] using ih
      · simpa [inputAt, hj] using ih

end Process

end Algorep.Kit
