import Algorep.Kit.Clocked
import Algorep.Proofs.Provenance
import Mathlib.Data.Rat.Floor

namespace Algorep.Proofs
open Kit Program Program.Consensus

/-- The node whose clock a move reads. -/
def clockOwner (l : Move n) : Fin n :=
  match l.2 with
  | .act i _ => i
  | .deliver _ dst _ => dst

/-- The reading a move uses, as `generateUniqueId` leaves it. -/
def wholeSeconds (l : Move n) : Option Nat :=
  match l.2 with
  | .act _ (.startConsensus _ now) | .act _ (.proceed now) | .deliver _ _ now => some now
  | .act _ .resetContext => none

abbrev ClockedCluster (n : Nat) := Clocked (Fin n) ℚ (Cluster n)

abbrev ClockedHistory (n : Nat) := List (ℚ × Fin n × Obs (Fin n) Packet (Event n))

/-- The cluster with a clock at each node, which shows seconds. -/
def clockedCluster (n : Nat) :
    Machine (ClockedCluster n) (ℚ × Move n) (ℚ × Fin n × Obs (Fin n) Packet (Event n)) :=
  (process n).network.clocked clockOwner 0

/-- A call of `startConsensus`, when its PREPARE was made, and the id of that. -/
structure Call (n : Nat) where
  node : Fin n
  number : Nat
  reading : ℚ
  pid : Int
deriving DecidableEq

def callAt : ℚ × Fin n × Obs (Fin n) Packet (Event n) → Option (Call n)
  | (reading,node,.did (.called number _ pid)) => some { node, number, reading, pid }
  | _ => none

def callsOf (es : ClockedHistory n) : List (Call n) := es.filterMap callAt

/-- What a call lasts at least, whichever checks it passes. -/
def callDuration : ℚ := promiseWaitDuration + logWriteDuration

/-- Moves use the reading of their time in whole seconds, and a call of `startConsensus`
returns no earlier than its two waits allow. -/
def onTime (es : ClockedHistory n) (s : ClockedCluster n) (l : ℚ × Move n) : Bool :=
  (wholeSeconds l.2).all (fun now => now == ⌊l.1⌋₊) &&
  match l.2.2 with
  | .act i (.proceed _) =>
    match (s.state.nodes i).thread with
    | .logWait _ => (callsOf es).all (fun c =>
      c.node != i || decide (c.reading + callDuration ≤ l.1))
    | _ => true
  | _ => true

/-- Runs of the clocked cluster in which calls take their time. -/
abbrev ClockedReach (n : Nat) : ClockedCluster n → ClockedHistory n → Prop :=
  (clockedCluster n).Reach (fun es s l => onTime es s l = true)

@[simp] theorem callsOf_append (es es' : ClockedHistory n) :
    callsOf (es ++ es') = callsOf es ++ callsOf es' :=
  List.filterMap_append

/-- The observations of one move with its node and its reading. -/
def stamped (now : ℚ) (i : Fin n) (h : List (Obs (Fin n) Packet (Event n))) : ClockedHistory n :=
  h.map (fun o => (now,i,o))

theorem callsOf_quiet {h : List (Obs (Fin n) Packet (Event n))}
    (hq : ∀ c v r, .did (.called c v r) ∉ h) : callsOf (stamped now i h) = [] := by
  refine List.filterMap_eq_nil_iff.mpr ?_
  intro x hx
  obtain ⟨o,ho,rfl⟩ := List.mem_map.mp hx
  cases o with
  | did e =>
    cases e with
    | called c v r => exact absurd ho (hq c v r)
    | _ => rfl
  | sent | received => rfl

/-- Calls of a node are apart by their duration, and its clock has gone on. -/
structure Spaced (s : ClockedCluster n) (calls : List (Call n)) : Prop where
  seconds : ∀ c ∈ calls, 0 ≤ c.reading ∧ c.pid = ⌊c.reading⌋₊
  past : ∀ c ∈ calls, c.reading ≤ s.clock c.node
  idle : ∀ c ∈ calls, (s.state.nodes c.node).thread = .idle →
    c.reading + callDuration ≤ s.clock c.node
  apart : calls.Pairwise (fun a b => a.node = b.node → a.reading + callDuration ≤ b.reading)

/-- A move that enters no call may end one when its time has come. -/
theorem Spaced.keep {s t : ClockedCluster n} (hs : Spaced s calls)
    (hclock : ∀ i, s.clock i ≤ t.clock i)
    (hidle : ∀ c ∈ calls, (t.state.nodes c.node).thread = .idle →
      (s.state.nodes c.node).thread = .idle ∨ c.reading + callDuration ≤ t.clock c.node) :
    Spaced t calls := by
  refine ⟨hs.seconds,?_,?_,hs.apart⟩
  · intro c hc
    exact (hs.past c hc).trans (hclock _)
  · intro c hc ht
    rcases hidle c hc ht with ht | hle
    · exact (hs.idle c hc ht).trans (hclock _)
    · exact hle

theorem Spaced.called {s t : ClockedCluster n} (hs : Spaced s calls) (hpos : 0 ≤ now)
    (hclock : t.clock = Function.update s.clock i now) (hle : s.clock i ≤ now)
    (hfree : (s.state.nodes i).thread = .idle) (hbusy : (t.state.nodes i).thread ≠ .idle)
    (hother : ∀ j, j ≠ i → t.state.nodes j = s.state.nodes j) :
    Spaced t (calls ++ [{ node := i, number := k, reading := now, pid := ⌊now⌋₊ }]) := by
  have hmono : ∀ j, s.clock j ≤ t.clock j := by
    intro j
    rw [hclock]
    by_cases hj : j = i
    · subst hj
      simpa using hle
    · simp [hj]
  refine ⟨?_,?_,?_,?_⟩
  · intro c hc
    rcases List.mem_append.mp hc with hc | hc
    · exact hs.seconds c hc
    · rw [List.mem_singleton.mp hc]
      exact ⟨hpos,rfl⟩
  · intro c hc
    rcases List.mem_append.mp hc with hc | hc
    · exact (hs.past c hc).trans (hmono _)
    · rw [List.mem_singleton.mp hc, hclock]
      simp
  · intro c hc ht
    have hne : c.node ≠ i := by
      intro he
      exact hbusy (he ▸ ht)
    rcases List.mem_append.mp hc with hc | hc
    · rw [hother _ hne] at ht
      exact (hs.idle c hc ht).trans (hmono _)
    · rw [List.mem_singleton.mp hc] at hne
      exact absurd rfl hne
  · refine List.pairwise_append.mpr ⟨hs.apart,List.pairwise_singleton _ _,?_⟩
    intro a ha b hb hab
    rw [List.mem_singleton.mp hb] at hab ⊢
    dsimp only at hab ⊢
    subst hab
    exact (hs.idle a ha hfree).trans hle

/-- A step of a node's threads enters a call, or makes the client thread idle only at
the end of one. -/
theorem acts_entry {rank : Fin n} (ha : Acts rank s a out) :
    (∃ v now, a = .startConsensus v now ∧ s.thread = .idle ∧ out.state.thread ≠ .idle ∧
      out.trace = [.did (.called (s.calls + 1) v (generateUniqueId rank now))]) ∨
    ((∀ c v r, .did (.called c v r) ∉ out.trace) ∧ (out.state.thread = .idle →
      s.thread = .idle ∨ ∃ b now, s.thread = .logWait b ∧ a = .proceed now)) := by
  have hend := acts_idle ha
  cases ha with
  | called value now ht => exact .inl ⟨value,now,rfl,ht,by simp,rfl⟩
  | _ => exact .inr ⟨by simp [Outcome.trace],hend⟩

theorem handles_no_call {rank : Fin n} (ha : Handles rank s src packet now out) (c : Nat)
    (v : String) (r : Int) : .did (.called c v r) ∉ out.trace := by
  cases ha <;> simp [Outcome.trace]

/-- A return finds its calls over. -/
theorem onTime_returned {s : ClockedCluster n}
    (hok : onTime es s (t,up,.act i (.proceed now)) = true)
    (ht : (s.state.nodes i).thread = .logWait b) (hc : c ∈ callsOf es) (hi : c.node = i) :
    c.reading + callDuration ≤ t := by
  simp only [onTime, ht, Bool.and_eq_true, List.all_eq_true] at hok
  simpa [hi] using hok.2 c hc

theorem step_spaced {s t : ClockedCluster n} (hs : Spaced s (callsOf es))
    (hpos : ∀ i, 0 ≤ s.clock i) (hok : onTime es s l = true)
    (hstep : (clockedCluster n).step s l = some (t,e)) : Spaced t (callsOf (es ++ e)) := by
  obtain ⟨now,up,l⟩ := l
  have hmono := Machine.clocked_clock_le hstep
  obtain ⟨hle,e,hnet,hclock,rfl⟩ := Machine.clocked_step hstep
  generalize hu : t.state = u at hnet
  rw [callsOf_append]
  cases Process.step_iff.mp hnet with
  | act i a out ho =>
    have hother : ∀ j, j ≠ i → t.state.nodes j = s.state.nodes j := by
      intro j hj
      rw [hu, Net.commit_other _ _ _ hj]
    have hself : t.state.nodes i = out.state := by rw [hu, Net.commit_self]
    have hstamp : (out.trace.map (fun o => (i,o))).map (fun x => (now,x)) =
        stamped now i out.trace := by simp [stamped]
    rw [hstamp]
    rcases acts_entry (acts_of_act ho) with ⟨v,k,rfl,hfree,hbusy,htrace⟩ | ⟨hq,hend⟩
    · have hk : k = ⌊now⌋₊ := by simpa [onTime, wholeSeconds] using hok
      rw [htrace, hk]
      exact hs.called ((hpos i).trans hle) hclock hle hfree (hself ▸ hbusy) hother
    · rw [callsOf_quiet hq, List.append_nil]
      refine hs.keep hmono ?_
      intro c hc ht
      by_cases hi : c.node = i
      · rw [hi, hself] at ht
        rcases hend ht with hidle | ⟨b,k,hwait,rfl⟩
        · exact .inl (hi ▸ hidle)
        · have hdone := onTime_returned hok hwait hc hi
          rw [hclock, hi]
          exact .inr (by simpa [clockOwner] using hdone)
      · exact .inl (hother _ hi ▸ ht)
  | handle src dst o m rest out hc hu' ho =>
    have ha := (handles_of_handle ho).2
    have hstamp : ((dst,Obs.received src m)::out.trace.map (fun o => (dst,o))).map
        (fun x => (now,x)) = stamped now dst (.received src m::out.trace) := by simp [stamped]
    rw [hstamp, callsOf_quiet (by simp [handles_no_call ha]), List.append_nil]
    refine hs.keep hmono ?_
    intro c hc ht
    left
    by_cases hi : c.node = dst
    · rw [hi, hu, Net.commit_self, handles_thread ha] at ht
      exact hi ▸ ht
    · rw [hu, Net.commit_other _ _ _ hi] at ht
      exact ht
  | discard src dst o m rest hc hu' =>
    rw [List.map_nil, show callsOf ([] : ClockedHistory n) = [] from rfl, List.append_nil]
    refine hs.keep hmono ?_
    intro c hc ht
    rw [hu] at ht
    exact .inl ht

theorem reach_spaced (hr : ClockedReach n s es) : Spaced s (callsOf es) := by
  induction hr with
  | start => exact ⟨by simp [callsOf],by simp [callsOf],by simp [callsOf],.nil⟩
  | step hr hok hs ih => exact step_spaced ih (fun i => hr.first_le i) hok hs

/-- No two calls share an id, and those of one node have growing ids. -/
structure UniqueIds (calls : List (Call n)) : Prop where
  unique : calls.Pairwise (fun a b => a.pid ≠ b.pid)
  ordered : calls.Pairwise (fun a b => a.node = b.node → a.pid < b.pid)

/-- Different nodes make their PREPAREs in different seconds. -/
def SecondsApart (calls : List (Call n)) : Prop :=
  calls.Pairwise (fun a b => a.node ≠ b.node → ⌊a.reading⌋₊ ≠ ⌊b.reading⌋₊)

theorem second_lt_of_apart (ha : 0 ≤ a) (hab : a + callDuration ≤ b) : ⌊a⌋₊ < ⌊b⌋₊ := by
  have hadd : ⌊a + (8 : Nat)⌋₊ = ⌊a⌋₊ + 8 := Nat.floor_add_natCast ha 8
  have hdur : a + callDuration = a + (8 : Nat) := by
    norm_num [callDuration, promiseWaitDuration, logWriteDuration]
  have hmono := Nat.floor_mono (hdur ▸ hab)
  omega

/-- What a node's later call has over its earlier one, by the waits between them. -/
theorem Spaced.ordered {s : ClockedCluster n} (hs : Spaced s calls) :
    calls.Pairwise (fun a b => a.node = b.node → a.pid < b.pid) := by
  refine hs.apart.imp_of_mem ?_
  intro a b ha hb hab hnode
  obtain ⟨hpos,hid⟩ := hs.seconds a ha
  have hlt := second_lt_of_apart hpos (hab hnode)
  rw [hid, (hs.seconds b hb).2]
  exact_mod_cast hlt

theorem Spaced.unique_iff {s : ClockedCluster n} (hs : Spaced s calls) :
    UniqueIds calls ↔ SecondsApart calls := by
  constructor
  · intro h
    refine h.unique.imp_of_mem ?_
    intro a b ha hb hne _
    rw [(hs.seconds a ha).2, (hs.seconds b hb).2] at hne
    exact_mod_cast hne
  · intro h
    refine ⟨?_,hs.ordered⟩
    refine (h.and hs.ordered).imp_of_mem ?_
    rintro a b ha hb ⟨hapart,hlater⟩
    by_cases hnode : a.node = b.node
    · exact ne_of_lt (hlater hnode)
    · have hne := hapart hnode
      rw [(hs.seconds a ha).2, (hs.seconds b hb).2]
      exact_mod_cast hne

theorem mem_callsOf {es : ClockedHistory n}
    (h : .did (.called c v r) ∈ historyAt i (es.map Prod.snd)) :
    ∃ reading, { node := i, number := c, reading := reading, pid := r } ∈ callsOf es := by
  obtain ⟨x,hx,he⟩ := List.mem_map.mp (mem_historyAt.mp h)
  obtain ⟨reading,x⟩ := x
  dsimp only at he
  subst he
  exact ⟨reading,List.mem_filterMap.mpr ⟨_,hx,rfl⟩⟩

/-- Every PREPARE sent carries the id of its call. The ids of a run are unique and
ordered exactly when no two nodes make PREPAREs in one second. -/
theorem round_ids_unique_iff (hr : ClockedReach n s es) :
    (∀ i dst packet pid, .sent dst packet ∈ historyAt i (es.map Prod.snd) →
      packet.message = .prepare pid →
      ∃ reading, { node := i, number := packet.call, reading := reading, pid := pid } ∈
        callsOf es) ∧
    (UniqueIds (callsOf es) ↔ SecondsApart (callsOf es)) := by
  refine ⟨?_,(reach_spaced hr).unique_iff⟩
  intro i dst packet pid hsent hm
  have hsource := run_sourced (reach_local hr.unclocked i) hsent
  simp only [Sourced, hm] at hsource
  obtain ⟨v,hcalled⟩ := hsource
  exact mem_callsOf hcalled

/-- Executes clocked moves from the start, and looks at the calls they leave behind. -/
def callsAfter (moves : List (ℚ × Move n)) : Option (List (Call n)) :=
  ((clockedCluster n).follow onTime moves (clockedCluster n).start []).map (fun r => callsOf r.2)

/-- Two nodes call `startConsensus`, each at its own time. -/
def bothCall (p q : Fin n) (t u : ℚ) : List (ℚ × Move n) :=
  [(t,.call p "a" ⌊t⌋₊),(u,.call q "b" ⌊u⌋₊)]

/-- The call of `p` fails, and `p` calls again. -/
def callsAgain (p q : Fin n) : List (ℚ × Move n) :=
  bothCall p q (21/2) (23/2) ++ [(11,.proceed p 11),(11,.proceed p 11),(31/2,.proceed p 15),
    (37/2,.proceed p 18),(37/2,.call p "a" 18)]

theorem callsAgain_apart : callsAfter (n := 3) (callsAgain 0 1) =
    some [⟨0,1,21/2,10⟩,⟨1,1,23/2,11⟩,⟨0,2,37/2,18⟩] := by
  decide +kernel

theorem round_ids_unique_callsAgain : ∃ (s : ClockedCluster 3) (es : ClockedHistory 3),
    ClockedReach 3 s es ∧ callsOf es = [⟨0,1,21/2,10⟩,⟨1,1,23/2,11⟩,⟨0,2,37/2,18⟩] ∧
    UniqueIds (callsOf es) := by
  obtain ⟨s,es,hr,h⟩ := Machine.exists_reach (fun _ _ _ h => h) callsAgain_apart
  dsimp only at h
  refine ⟨s,es,hr,h,(round_ids_unique_iff hr).2.mpr ?_⟩
  rw [h, SecondsApart]
  decide +kernel

theorem bothCall_sameSecond : callsAfter (n := 3) (bothCall 0 1 (21/2) (43/4)) =
    some [⟨0,1,21/2,10⟩,⟨1,1,43/4,10⟩] := by
  decide +kernel

/-- Two nodes use one id, since `generateUniqueId` only reads the clock. -/
theorem round_id_shared : ∃ (s : ClockedCluster 3) (es : ClockedHistory 3),
    ClockedReach 3 s es ∧ callsOf es = [⟨0,1,21/2,10⟩,⟨1,1,43/4,10⟩] ∧
    ¬ UniqueIds (callsOf es) := by
  obtain ⟨s,es,hr,h⟩ := Machine.exists_reach (fun _ _ _ h => h) bothCall_sameSecond
  refine ⟨s,es,hr,h,?_⟩
  intro hu
  have hne := hu.unique
  dsimp only at h
  rw [h] at hne
  simp at hne

end Algorep.Proofs
