import Algorep.Proofs.Phases

namespace Algorep.Proofs
open Kit Program Program.Consensus

/-- A node outside `startConsensus` and outside its handlers. -/
structure Following (log : List String) (node : Node n) : Prop where
  thread : node.thread = .idle
  resetting : node.resetting = false
  log : node.log = log

/-- The exchange of the PREPARE of round `r`, among nodes whose log is `log`. -/
def preparing (n : Nat) (log : List String) (r : Int) : Exchange n where
  asks m := m = .prepare r
  before node := Following log node ∧ node.context = {} ∧ node.maxRoundId < r
  answer back node := (∃ pid c, back = [⟨.promise pid r none,c⟩]) ∧
    Following log node ∧ node.context = {} ∧ node.maxRoundId = r
  after node := Following log node ∧ node.context = {} ∧ node.maxRoundId = r

theorem preparing_lawful (n : Nat) (log : List String) (r : Int) : (preparing n log r).Lawful where
  idle := by
    rintro node (⟨h,_⟩ | ⟨_,_,h,_⟩ | ⟨h,_⟩)
    all_goals exact h.thread
  awake := by
    rintro node (⟨h,_⟩ | ⟨h,_⟩)
    all_goals exact h.resetting
  serves := by
    intro packet node rank src now out hm hn ha
    obtain ⟨hf,hc,hlow⟩ := hn
    cases ha with
    | promised id hm' hid =>
      rw [hm] at hm'
      cases hm'
      exact ⟨⟨generateUniqueId rank now,packet.call,by simp [reported, hc]⟩,
        ⟨hf.thread,hf.resetting,hf.log⟩,hc,rfl⟩
    | refusedPrepare id hm' hid =>
      rw [hm] at hm'
      cases hm'
      omega
    | countedPromise _ _ _ hm' | accepted _ _ _ hm' | refusedPropose _ _ _ hm'
    | countedAccept _ _ hm' | learned _ _ _ hm' =>
      rw [hm] at hm'
      contradiction
  closes := by
    rintro packet back node ⟨⟨pid,c,he⟩,hn⟩
    cases he
    exact ⟨rfl,hn⟩
  resets := by
    rintro node ⟨⟨pid,c,he⟩,hn⟩
    contradiction

/-- The exchange of the PROPOSE of `v` in round `r`. -/
def proposing (n : Nat) (log : List String) (r : Int) (v : String) : Exchange n where
  asks m := ∃ pid, m = .propose pid r v
  before := (preparing n log r).after
  answer back node := (∃ pid r' c, back = [⟨.accept pid r',c⟩]) ∧ Following log node ∧
    node.maxRoundId = r
  after node := Following log node ∧ node.maxRoundId = r

theorem proposing_lawful (n : Nat) (log : List String) (r : Int) (v : String) :
    (proposing n log r v).Lawful where
  idle := by
    rintro node (⟨h,_⟩ | ⟨_,_,h,_⟩ | ⟨h,_⟩)
    all_goals exact h.thread
  awake := by
    rintro node (⟨h,_⟩ | ⟨h,_⟩)
    all_goals exact h.resetting
  serves := by
    intro packet node rank src now out hm hn ha
    obtain ⟨mid,hm⟩ := hm
    obtain ⟨hf,hc,hr⟩ := hn
    cases ha with
    | accepted pid roundId value hm' hid =>
      rw [hm] at hm'
      cases hm'
      exact ⟨⟨_,_,_,rfl⟩,⟨hf.thread,hf.resetting,hf.log⟩,hr⟩
    | refusedPropose pid roundId value hm' hid =>
      rw [hm] at hm'
      cases hm'
      exact absurd hr.symm hid
    | promised _ hm' | refusedPrepare _ hm' | countedPromise _ _ _ hm' | countedAccept _ _ hm'
    | learned _ _ _ hm' =>
      rw [hm] at hm'
      contradiction
  closes := by
    rintro packet back node ⟨⟨pid,r',c,he⟩,hn⟩
    cases he
    exact ⟨rfl,hn⟩
  resets := by
    rintro node ⟨⟨pid,r',c,he⟩,hn⟩
    contradiction

/-- The exchange of the ACCEPTED of `v`. Nothing comes back; a node that has
appended `v` still has to reset its context. -/
def teaching (n : Nat) (log : List String) (r : Int) (v : String) : Exchange n where
  asks m := ∃ pid roundId, m = .accepted pid roundId v
  before := (proposing n log r v).after
  answer back node := back = [] ∧ node.thread = .idle ∧ node.resetting = true ∧
    node.log = log ++ [v] ∧ node.maxRoundId = r
  after node := Following (log ++ [v]) node ∧ node.context = {} ∧ node.maxRoundId = r

theorem teaching_lawful (n : Nat) (log : List String) (r : Int) (v : String) :
    (teaching n log r v).Lawful where
  idle := by
    rintro node (⟨h,_⟩ | ⟨_,_,h,_⟩ | ⟨h,_⟩)
    · exact h.thread
    · exact h
    · exact h.thread
  awake := by
    rintro node (⟨h,_⟩ | ⟨h,_⟩)
    all_goals exact h.resetting
  serves := by
    intro packet node rank src now out hm hn ha
    obtain ⟨mid,roundId,hm⟩ := hm
    obtain ⟨hf,hr⟩ := hn
    cases ha with
    | learned pid roundId value hm' =>
      rw [hm] at hm'
      cases hm'
      exact ⟨rfl,hf.thread,rfl,by rw [hf.log],hr⟩
    | promised _ hm' | refusedPrepare _ hm' | countedPromise _ _ _ hm' | accepted _ _ _ hm'
    | refusedPropose _ _ _ hm' | countedAccept _ _ hm' =>
      rw [hm] at hm'
      contradiction
  closes := by
    rintro packet back node ⟨he,_⟩
    contradiction
  resets := by
    rintro node ⟨_,ht,hb,hlog,hr⟩
    exact ⟨hb,⟨ht,rfl,hlog⟩,rfl,hr⟩

/-- Where the proposer itself is while its round `r` for `v` exchanges `x`. -/
inductive Proposing (p : Fin n) (log : List String) (r : Int) (v : String) (node : Node n) :
    Exchange n → List (Fin n) → Finset (Fin n) → Prop
  | prepare (ht : node.thread = .prepare v (.prepare r) rest) (hs : rest <:+ others p)
      (hc : node.context = { roundId := r, promiseCount := heard.card }) (hl : node.log = log) :
      Proposing p log r v node (preparing n log r) rest heard
  | promised (ht : node.thread = .majorityPromised v)
      (hc : node.context = { roundId := r, promiseCount := k }) (hl : node.log = log) :
      Proposing p log r v node (proposing n log r v) (others p) ∅
  | propose (ht : node.thread = .propose v (.propose mid r v) rest) (hs : rest <:+ others p)
      (hc : node.context = { roundId := r, promiseCount := k, acceptCount := heard.card })
      (hl : node.log = log) : Proposing p log r v node (proposing n log r v) rest heard
  | accepted (ht : node.thread = .majorityAccepted v) (hl : node.log = log) :
      Proposing p log r v node (teaching n log r v) (others p) ∅
  | written (ht : node.thread = .logWritten v) (hl : node.log = log ++ [v]) :
      Proposing p log r v node (teaching n log r v) (others p) ∅
  | announce (ht : node.thread = .accepted v (.accepted mid roundId v) rest)
      (hs : rest <:+ others p) (hl : node.log = log ++ [v]) :
      Proposing p log r v node (teaching n log r v) rest heard
  | wait (ht : node.thread = .logWait true) (hl : node.log = log ++ [v]) :
      Proposing p log r v node (teaching n log r v) [] heard
  | returned (ht : node.thread = .idle) (hc : node.context = {}) (hl : node.log = log ++ [v]) :
      Proposing p log r v node (teaching n log r v) [] heard

def submission (p : Fin n) : Event n → Option (Fin n × String × Int)
  | .called _ v pid => some (p,v,pid)
  | _ => none

/-- The calls so far: proposer, argument and PREPARE id. -/
def submitted (es : History n) : List (Fin n × String × Int) :=
  es.filterMap (fun x => match x.2 with
    | .did e => submission x.1 e
    | _ => none)

def values (es : History n) : List String := (submitted es).map (fun x => x.2.1)

/-- Everything is delivered and handled, and no call is in progress. -/
def Settled (s : Cluster n) : Prop := Quiet s ∧ ∀ i, (s.nodes i).thread = .idle

instance (s : Cluster n) : Decidable (Settled s) := inferInstanceAs (Decidable (_ ∧ _))

/-- Calls come one after another with growing PREPARE ids, nobody is dead, and every
message of a phase is handled before its count is sampled and before the next call. -/
def wellTimed (es : History n) (s : Cluster n) (l : Move n) : Bool :=
  decide (NoneDead l) && match l.2 with
  | .act p (.startConsensus _ now) =>
    decide (Settled s ∧ ∀ x ∈ submitted es, x.2.2 < generateUniqueId p now)
  | .act p (.proceed _) =>
    match (s.nodes p).thread with
    | .prepare _ _ [] | .propose _ _ [] => decide (Quiet s)
    | _ => true
  | _ => true

/-- The initial watermark, or the id of a call so far. -/
def Known (es : History n) (m : Int) : Prop := m = -1 ∨ ∃ x ∈ submitted es, x.2.2 = m

/-- Either every node rests with the same log, or one round is under way. -/
inductive Standing (s : Cluster n) (es : History n) : Prop
  | resting (hn : ∀ i, Following (values es) (s.nodes i) ∧ (s.nodes i).context = {} ∧
        Known es (s.nodes i).maxRoundId)
      (hc : ∀ a b, s.chan a b = [])
  | round (p : Fin n) (log : List String) (r : Int) (v : String) (x : Exchange n)
      (rest : List (Fin n)) (heard : Finset (Fin n)) (hv : values es = log ++ [v])
      (hk : Known es r) (hb : (s.nodes p).resetting = false)
      (hm : Known es (s.nodes p).maxRoundId)
      (hp : Proposing p log r v (s.nodes p) x rest heard) (hr : Round s p x rest heard)

theorem Standing.congr (h : Standing s es) (he : submitted es' = submitted es) :
    Standing s es' := by
  cases h with
  | resting hn hc => exact .resting (by simpa only [values, Known, he] using hn) hc
  | round p log r v x rest heard hv hk hb hm hp hr =>
    refine .round p log r v x rest heard ?_ ?_ hb ?_ hp hr
    · simpa only [values, he] using hv
    · simpa only [Known, he] using hk
    · simpa only [Known, he] using hm

/-- What all nodes have in common once a round is settled. -/
theorem Standing.settled {s : Cluster n} (h : Standing s es) (hs : Settled s) (i : Fin n) :
    Following (values es) (s.nodes i) ∧ (s.nodes i).context = {} ∧
      Known es (s.nodes i).maxRoundId := by
  cases h with
  | resting hn hc => exact hn i
  | round p log r v x rest heard hv hk hb hm hp hr =>
    have hidle := hs.2 p
    cases hp with
    | returned ht hc hl =>
      rcases Decidable.em (i = p) with rfl | hne
      · exact ⟨⟨ht,hb,hl.trans hv.symm⟩,hc,hm⟩
      · obtain ⟨hf,hctx,hround⟩ := (hr.complete hs.1 hne).2
        rw [hv, hround]
        exact ⟨hf,hctx,hk⟩
    | prepare ht | promised ht | propose ht | accepted ht | written ht | announce ht | wait ht =>
      rw [hidle] at ht
      contradiction

@[simp] theorem submitted_append (es es' : History n) :
    submitted (es ++ es') = submitted es ++ submitted es' :=
  List.filterMap_append

/-- Only a step into `startConsensus` is a call. -/
theorem step_submitted {s : Cluster n} (h : (process n).Step up s l t e) :
    submitted e = match l with
      | .act p (.startConsensus v now) => [(p,v,generateUniqueId p now)]
      | _ => [] := by
  have htrace : ∀ (i : Fin n) (out : Result n),
      submitted (out.trace.map (fun o => (i,o))) = out.events.filterMap (submission i) := by
    intro i out
    simp only [submitted, Outcome.trace, List.map_append, List.filterMap_append, List.map_map,
      List.filterMap_map, Function.comp_def]
    cases out.send <;> simp
  cases h with
  | act i a out ho =>
    rw [htrace]
    cases acts_of_act ho <;> rfl
  | handle src dst o m rest out hc hu ho =>
    have hreceived : ∀ es : History n, submitted ((dst,.received src m)::es) = submitted es :=
      fun _ => rfl
    rw [hreceived, htrace]
    cases (handles_of_handle ho).2 <;> rfl
  | discard => rfl

theorem submitted_uncalled {s : Cluster n} (es : History n) (h : (process n).Step up s l t e)
    (hl : ∀ p v now, l ≠ .act p (.startConsensus v now)) :
    submitted (es ++ e) = submitted es := by
  rw [submitted_append, step_submitted h]
  cases l with
  | act p a =>
    cases a with
    | startConsensus v now => exact absurd rfl (hl p v now)
    | _ => simp
  | deliver => simp

/-- A call starts from a settled cluster. -/
theorem called_standing {s : Cluster n} (h : Standing s es) (hs : Settled s)
    (hid : ∀ x ∈ submitted es, x.2.2 < generateUniqueId p now)
    (ho : act p (s.nodes p) (.startConsensus v now) = some out)
    (he : submitted es' = submitted es ++ [(p,v,generateUniqueId p now)]) :
    Standing (s.commit allUp p out) es' := by
  have hbelow : ∀ m, Known es m → m < generateUniqueId p now := by
    rintro m (rfl | ⟨x,hx,rfl⟩)
    · exact Int.lt_of_lt_of_le (by decide) (Int.natCast_nonneg now)
    · exact hid x hx
  have hmono : ∀ m, Known es m → Known es' m := by
    rintro m (hm | ⟨x,hx,hm⟩)
    · exact .inl hm
    · exact .inr ⟨x,he ▸ List.mem_append_left _ hx,hm⟩
  obtain ⟨hf,hc,hm⟩ := h.settled hs p
  simp only [act, startConsensus, hf.thread, broadcastPrepare, Option.some.injEq] at ho
  subst ho
  refine .round p (values es) (generateUniqueId p now) v
    (preparing n (values es) (generateUniqueId p now)) (others p) ∅ ?_ ?_ ?_ ?_ ?_ ?_
  · simp [values, he]
  · exact .inr ⟨_,he ▸ List.mem_append_right _ List.mem_cons_self,rfl⟩
  · rw [Net.commit_self]
    exact hf.resetting
  · rw [Net.commit_self]
    exact hmono _ hm
  · rw [Net.commit_self]
    exact .prepare rfl (List.suffix_refl _) (by simp [hc]) hf.log
  · refine ⟨preparing_lawful _ _ _,?_,?_,?_⟩
    · intro i hi
      obtain ⟨hfi,hci,hmi⟩ := h.settled hs i
      rw [Net.commit_silent _ _ _ rfl, Net.commit_other _ _ _ hi]
      exact .unsent (mem_others.mpr hi) (hs.1.1 _ _) (hs.1.1 _ _) ⟨hfi,hci,hbelow _ hmi⟩
    · intro a b _ _
      rw [Net.commit_silent _ _ _ rfl, hs.1.1]
    · rw [Net.commit_silent _ _ _ rfl, hs.1.1]

/-- The next step of the proposer of a round. -/
theorem proceed_standing {s : Cluster n} {x : Exchange n} (hv : values es = log ++ [v])
    (hk : Known es r) (hb : (s.nodes p).resetting = false) (hm : Known es (s.nodes p).maxRoundId)
    (hp : Proposing p log r v (s.nodes p) x rest heard) (hr : Round s p x rest heard)
    (hquiet : ∀ m, (s.nodes p).thread = .prepare v m [] ∨ (s.nodes p).thread = .propose v m [] →
      Quiet s)
    (ho : act p (s.nodes p) (.proceed now) = some out) : Standing (s.commit allUp p out) es := by
  have hother : ∀ (out : Result n) j, j ≠ p → (s.commit allUp p out).nodes j = s.nodes j :=
    fun out j hj => Net.commit_other s allUp out hj
  -- it keeps the proposer's own watermark, and its receiver stays out of handlers
  have hstand : ∀ (out : Result n) (x : Exchange n) rest heard,
      out.state.resetting = (s.nodes p).resetting →
      out.state.maxRoundId = (s.nodes p).maxRoundId → Proposing p log r v out.state x rest heard →
      Round (s.commit allUp p out) p x rest heard → Standing (s.commit allUp p out) es := by
    intro out x rest heard hbo hmo hpo hro
    refine .round p log r v x rest heard hv hk ?_ ?_ ?_ hro
    · rw [Net.commit_self, hbo, hb]
    · rw [Net.commit_self, hmo]
      exact hm
    · rw [Net.commit_self]
      exact hpo
  have hdst : ∀ {dst : Fin n} {rest}, dst::rest <:+ others p → dst ≠ p ∧ dst ∉ rest := by
    intro dst rest hs
    exact ⟨mem_others.mp (hs.subset List.mem_cons_self),
      (List.nodup_cons.mp (hs.sublist.nodup (others_nodup p))).1⟩
  cases hp with
  | prepare ht hs hc hl =>
    cases rest with
    | cons dst rest =>
      simp only [act, proceed, ht, Option.some.injEq] at ho
      subst ho
      obtain ⟨hd,hnew⟩ := hdst hs
      exact hstand _ _ _ _ rfl rfl (.prepare rfl ((List.suffix_cons _ _).trans hs) hc hl)
        (hr.send hd hnew rfl rfl)
    | nil =>
      have hq := hquiet _ (.inl ht)
      have hpass : receivePromises n (s.nodes p).context = true := by
        simpa [receivePromises, hc] using hr.all_heard hq
      simp only [act, proceed, ht, hpass, ↓reduceIte, Option.some.injEq] at ho
      subst ho
      exact hstand _ _ _ _ rfl rfl (.promised rfl hc hl)
        (hr.next hq (proposing_lawful n log r v) (fun _ h => h) (hother _) (Net.commit_silent _ _ _ rfl))
  | promised ht hc hl =>
    simp only [act, proceed, ht, broadcastPropose, proposeValue, hc, ↓reduceIte,
      Option.some.injEq] at ho
    subst ho
    exact hstand _ _ _ ∅ rfl rfl (.propose rfl (List.suffix_refl _) rfl hl)
      (hr.local (hother _) (Net.commit_silent _ _ _ rfl))
  | propose ht hs hc hl =>
    cases rest with
    | cons dst rest =>
      simp only [act, proceed, ht, Option.some.injEq] at ho
      subst ho
      obtain ⟨hd,hnew⟩ := hdst hs
      exact hstand _ _ _ _ rfl rfl (.propose rfl ((List.suffix_cons _ _).trans hs) hc hl)
        (hr.send hd hnew rfl ⟨_,rfl⟩)
    | nil =>
      have hq := hquiet _ (.inr ht)
      have hpass : receiveAccepts n (s.nodes p).context = true := by
        simpa [receiveAccepts, hc] using hr.all_heard hq
      simp only [act, proceed, ht, hpass, ↓reduceIte, Option.some.injEq] at ho
      subst ho
      exact hstand _ _ _ _ rfl rfl (.accepted rfl hl)
        (hr.next hq (teaching_lawful n log r v) (fun _ h => h) (hother _) (Net.commit_silent _ _ _ rfl))
  | accepted ht hl =>
    simp only [act, proceed, ht, Option.some.injEq] at ho
    subst ho
    exact hstand _ _ _ _ rfl rfl (.written rfl (by rw [hl]))
      (hr.local (hother _) (Net.commit_silent _ _ _ rfl))
  | written ht hl =>
    simp only [act, proceed, ht, broadcastAccepted, Option.some.injEq] at ho
    subst ho
    exact hstand _ _ _ _ rfl rfl (.announce rfl (List.suffix_refl _) hl)
      (hr.local (hother _) (Net.commit_silent _ _ _ rfl))
  | announce ht hs hl =>
    cases rest with
    | cons dst rest =>
      simp only [act, proceed, ht, Option.some.injEq] at ho
      subst ho
      obtain ⟨hd,hnew⟩ := hdst hs
      exact hstand _ _ _ _ rfl rfl (.announce rfl ((List.suffix_cons _ _).trans hs) hl)
        (hr.send hd hnew rfl ⟨_,_,rfl⟩)
    | nil =>
      simp only [act, proceed, ht, Option.some.injEq] at ho
      subst ho
      exact hstand _ _ _ _ rfl rfl (.wait rfl hl)
        (hr.local (hother _) (Net.commit_silent _ _ _ rfl))
  | wait ht hl =>
    simp only [act, proceed, ht, Option.some.injEq] at ho
    subst ho
    exact hstand _ _ _ _ rfl rfl (.returned rfl rfl hl)
      (hr.local (hother _) (Net.commit_silent _ _ _ rfl))
  | returned ht hc hl => simp [act, proceed, ht] at ho

/-- The proposer of a round counts an answer. -/
theorem counts_answer {s : Cluster n} {x : Exchange n} {out : Result n}
    (hp : Proposing p log r v (s.nodes p) x rest heard) (hi : i ∉ heard) (hu : i ∉ rest)
    (hne : i ≠ p) (hx : x.answer [packet] (s.nodes i))
    (ha : Handles p (s.nodes p) i packet now out) :
    out.send = none ∧ out.state.resetting = (s.nodes p).resetting ∧
      out.state.maxRoundId = (s.nodes p).maxRoundId ∧
      Proposing p log r v out.state x rest (insert i heard) := by
  have hcard := Finset.card_insert_of_notMem hi
  cases hp with
  | prepare ht hs hc hl =>
    obtain ⟨⟨pid,c,he⟩,_⟩ := hx
    cases he
    cases ha with
    | countedPromise _ _ _ hm =>
      cases hm
      refine ⟨rfl,rfl,rfl,.prepare ht hs ?_ hl⟩
      simp [handlePromiseMessage, hc, hcard]
    | promised _ hm | refusedPrepare _ hm | accepted _ _ _ hm | refusedPropose _ _ _ hm
    | countedAccept _ _ hm | learned _ _ _ hm => contradiction
  | @propose mid _ k _ ht hs hc hl =>
    obtain ⟨⟨pid,r',c,he⟩,_⟩ := hx
    cases he
    cases ha with
    | countedAccept _ _ hm =>
      refine ⟨rfl,rfl,rfl,.propose (k := k) ht hs ?_ hl⟩
      simp [handleAcceptMessage, hc, hcard]
    | promised _ hm | refusedPrepare _ hm | accepted _ _ _ hm | refusedPropose _ _ _ hm
    | countedPromise _ _ _ hm | learned _ _ _ hm => contradiction
  | promised | accepted | written => exact absurd (mem_others.mpr hne) hu
  | announce | wait | returned => exact absurd hx.1 (by simp)

/-- Only the last exchange has answers without a reply. -/
theorem Proposing.hear {s : Cluster n} {x : Exchange n}
    (hp : Proposing p log r v node x rest heard)
    (hi : i ∉ rest ∧ s.chan p i = [] ∧ s.chan i p = [] ∧ x.answer [] (s.nodes i)) (hne : i ≠ p) :
    Proposing p log r v node x rest (insert i heard) := by
  obtain ⟨hu,_,_,hn⟩ := hi
  cases hp with
  | prepare | promised | propose => exact absurd hn.1 (by simp)
  | accepted | written => exact absurd (mem_others.mpr hne) hu
  | announce ht hs hl => exact .announce ht hs hl
  | wait ht hl => exact .wait ht hl
  | returned ht hc hl => exact .returned ht hc hl

/-- Every step of a well-timed run keeps to one round at a time. -/
theorem step_standing {s : Cluster n} (h : Standing s es) (hrec : ∀ i, s.chan i i = [])
    (hok : wellTimed es s (up,l) = true) (hs : (process n).Step up s l t e) :
    Standing t (es ++ e) := by
  simp only [wellTimed, Bool.and_eq_true, decide_eq_true_eq] at hok
  obtain ⟨hup,hguard⟩ := hok
  have hlinks : up = allUp := hup.links
  subst hlinks
  have hsub := step_submitted hs
  have hsame := submitted_uncalled es hs
  cases hs with
  | act i a out ho =>
    cases a with
    | startConsensus v now =>
      obtain ⟨hsettled,hid⟩ := of_decide_eq_true hguard
      exact called_standing h hsettled hid ho (by rw [submitted_append, hsub])
    | proceed now =>
      refine Standing.congr ?_ (hsame (by simp))
      have hbusy : (s.nodes i).thread ≠ .idle := by
        intro hidle
        simp [process, act, proceed, hidle] at ho
      cases h with
      | resting hn hc => exact absurd (hn i).1.thread hbusy
      | round p log r v x rest heard hv hk hb hm hp hr =>
        have hi : i = p := by
          by_contra hne
          exact hbusy (hr.idle hne)
        subst hi
        dsimp only at hguard
        refine proceed_standing hv hk hb hm hp hr ?_ ho
        rintro m (ht | ht)
        all_goals
          rw [ht] at hguard
          exact of_decide_eq_true hguard
    | resetContext =>
      refine Standing.congr ?_ (hsame (by simp))
      have ha : Acts i (s.nodes i) .resetContext out := acts_of_act ho
      cases ha with
      | reset hreset =>
        cases h with
        | resting hn hc =>
          rw [(hn i).1.resetting] at hreset
          contradiction
        | round p log r v x rest heard hv hk hb hm hp hr =>
          have hi : i ≠ p := by
            rintro rfl
            rw [hb] at hreset
            contradiction
          have hother := fun out : Result n => Net.commit_other s allUp out hi.symm
          refine .round p log r v x rest (insert i heard) hv hk ?_ ?_ ?_
            (hr.reset hi hreset rfl rfl)
          · rw [hother, hb]
          · rw [hother]
            exact hm
          · rw [hother]
            exact hp.hear (hr.busy hi hreset) hi
  | handle src dst o m q out hc hu ho =>
    refine Standing.congr ?_ (hsame (by simp))
    have ha := (handles_of_handle ho).2
    cases h with
    | resting hn hchan =>
      rw [hchan] at hc
      contradiction
    | round p log r v x rest heard hv hk hb hm hp hr =>
      rcases Decidable.em (src = p) with rfl | hsrc
      · have hdst : dst ≠ src := by
          rintro rfl
          rw [hrec] at hc
          contradiction
        have hother := Net.commit_other (s.setChan src dst q) allUp out hdst.symm
        refine .round src log r v x rest heard hv hk ?_ ?_ ?_ (hr.serve hdst hc ha)
        all_goals
          rw [hother]
          assumption
      · rcases Decidable.em (dst = p) with rfl | hdst
        · obtain ⟨hnew,hu,_,_,hx⟩ := hr.answered hsrc hc
          obtain ⟨hsend,hbo,hmo,hpo⟩ := counts_answer hp hnew hu hsrc hx ha
          refine .round dst log r v x rest (insert src heard) hv hk ?_ ?_ ?_
            (hr.close hsrc hc ha hsend)
          · rw [Net.commit_self, hbo, hb]
          · rw [Net.commit_self, hmo]
            exact hm
          · rw [Net.commit_self]
            exact hpo
        · rw [hr.apart src dst hsrc hdst] at hc
          contradiction
  | discard src dst o m q hc hu => contradiction

end Algorep.Proofs
