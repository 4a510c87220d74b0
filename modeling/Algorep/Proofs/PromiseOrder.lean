import Algorep.Program.Consensus
import Mathlib.Data.List.Count

namespace Algorep.Proofs
open Kit Program Program.Consensus

/-- What a PROMISE tells the proposer. -/
structure Promise where
  roundId : Int
  accepted : Option (Int × String)
deriving DecidableEq, Repr

/-- The PROMISEs of a round are handled one after the other. -/
def collect (promises : List Promise) (context : Context) : Context :=
  promises.foldl (fun context p => handlePromiseMessage p.roundId p.accepted context) context

/-- The accepted pairs reported for round `r`. -/
def reports (r : Int) (promises : List Promise) : List (Int × String) :=
  (promises.filter (fun p => p.roundId == r)).filterMap (fun p => p.accepted)

def isLargest (a : Int × String) (pairs : List (Int × String)) : Prop :=
  a ∈ pairs ∧ ∀ b ∈ pairs, b.1 ≤ a.1

theorem mem_reports : a ∈ reports r promises ↔
    ∃ p ∈ promises, p.roundId = r ∧ p.accepted = some a := by
  simp only [reports, List.mem_filterMap, List.mem_filter, beq_iff_eq, and_assoc]

/-- What the context of a round says about the PROMISEs handled so far. -/
structure Collected (r : Int) (heard : List Promise) (context : Context) : Prop where
  round : context.roundId = r
  count : context.promiseCount = heard.countP (fun p => p.roundId == r)
  largest : (reports r heard = [] ∧ context.maxAcceptedId = -1) ∨
    ∃ a, isLargest a (reports r heard) ∧ 0 ≤ a.1 ∧
      context.maxAcceptedId = a.1 ∧ context.acceptedValue = a.2

theorem collected_start (rank : Fin n) (now : Nat) :
    Collected (generateUniqueId rank now) [] (broadcastPrepare rank now {}).2 :=
  ⟨rfl,rfl,.inl ⟨rfl,rfl⟩⟩

theorem keep_largest (h : isLargest a pairs) (hb : ∀ b ∈ pairs', b.1 ≤ a.1) :
    isLargest a (pairs ++ pairs') := by
  refine ⟨List.mem_append_left _ h.1,?_⟩
  intro b hm
  rcases List.mem_append.mp hm with hm | hm
  · exact h.2 b hm
  · exact hb b hm

/-- One more PROMISE. -/
theorem Collected.hear (h : Collected r heard context)
    (hid : ∀ a, p.accepted = some a → 0 ≤ a.1) :
    Collected r (heard ++ [p]) (handlePromiseMessage p.roundId p.accepted context) := by
  obtain ⟨roundId,accepted⟩ := p
  by_cases hr : roundId = r
  case neg =>
    -- a PROMISE of another round changes nothing
    have hsame : handlePromiseMessage roundId accepted context = context := by
      rw [handlePromiseMessage, if_neg (by rw [h.round]; exact hr)]
    have hreports : reports r (heard ++ [⟨roundId,accepted⟩]) = reports r heard := by
      simp [reports, hr]
    rw [hsame]
    exact ⟨h.round,by simp [h.count, hr],hreports ▸ h.largest⟩
  subst hr
  cases accepted with
  | none =>
    have hreports : reports roundId (heard ++ [⟨roundId,none⟩]) = reports roundId heard := by
      simp [reports]
    have hnot : ¬ -1 > context.maxAcceptedId := by
      rcases h.largest with ⟨-,hmax⟩ | ⟨a,-,ha,hmax,-⟩ <;> omega
    have hheard : handlePromiseMessage roundId none context =
        { context with promiseCount := context.promiseCount + 1 } := by
      simp [handlePromiseMessage, h.round, hnot]
    rw [hheard]
    exact ⟨h.round,by simp [h.count],hreports ▸ h.largest⟩
  | some a =>
    have ha : 0 ≤ a.1 := hid a rfl
    have hreports :
        reports roundId (heard ++ [⟨roundId,some a⟩]) = reports roundId heard ++ [a] := by
      simp [reports]
    by_cases hmore : a.1 > context.maxAcceptedId
    · have hheard : handlePromiseMessage roundId (some a) context =
          { context with
            acceptedValue := a.2
            maxAcceptedId := a.1
            promiseCount := context.promiseCount + 1 } := by
        simp [handlePromiseMessage, h.round, hmore]
      rw [hheard]
      refine ⟨h.round,by simp [h.count],.inr ⟨a,?_,ha,rfl,rfl⟩⟩
      rw [hreports]
      refine ⟨List.mem_append_right _ List.mem_cons_self,?_⟩
      intro b hb
      rcases List.mem_append.mp hb with hb | hb
      · rcases h.largest with ⟨hnil,-⟩ | ⟨c,hc,-,hmax,-⟩
        · simp [hnil] at hb
        · have hbc := hc.2 b hb
          omega
      · rw [List.mem_singleton.mp hb]
    · have hheard : handlePromiseMessage roundId (some a) context =
          { context with promiseCount := context.promiseCount + 1 } := by
        simp [handlePromiseMessage, h.round, hmore]
      rw [hheard]
      refine ⟨h.round,by simp [h.count],.inr ?_⟩
      rw [hreports]
      rcases h.largest with ⟨-,hmax⟩ | ⟨c,hc,hpos,hmax,hvalue⟩
      · omega
      · refine ⟨c,keep_largest hc ?_,hpos,hmax,hvalue⟩
        intro b hb
        rw [List.mem_singleton.mp hb]
        omega

theorem collect_collected (h : Collected r heard context)
    (hid : ∀ p ∈ promises, ∀ a, p.accepted = some a → 0 ≤ a.1) :
    Collected r (heard ++ promises) (collect promises context) := by
  induction promises generalizing heard context with
  | nil => simpa [collect] using h
  | cons p promises ih =>
    have hp := h.hear (hid p List.mem_cons_self)
    have hrest := ih hp (fun q hq => hid q (List.mem_cons_of_mem _ hq))
    rwa [List.append_assoc, List.singleton_append] at hrest

/-- PROMISEs that report one id report one value. -/
def Consistent (promises : List Promise) : Prop :=
  ∀ p ∈ promises, ∀ q ∈ promises, ∀ a, p.accepted = some a →
    ∀ b, q.accepted = some b → a.1 = b.1 → a.2 = b.2

/-- The value that goes into the PROPOSE is the one reported with the largest id. -/
theorem Collected.propose (h : Collected r promises context) (hall : Consistent promises)
    (ha : isLargest a (reports r promises)) :
    context.maxAcceptedId = a.1 ∧ ∀ value, proposeValue value context = a.2 := by
  rcases h.largest with ⟨hnil,-⟩ | ⟨b,hb,hpos,hmax,hvalue⟩
  · exact absurd ha.1 (by simp [hnil])
  · obtain ⟨p,hp,-,hpa⟩ := mem_reports.mp ha.1
    obtain ⟨q,hq,-,hqb⟩ := mem_reports.mp hb.1
    have hid : a.1 = b.1 := Int.le_antisymm (hb.2 a ha.1) (ha.2 b hb.1)
    refine ⟨hmax.trans hid.symm,fun value => ?_⟩
    rw [proposeValue, if_neg (by omega), hvalue, hall p hp q hq a hpa b hqb hid]

theorem Collected.propose_own (h : Collected r promises context) (hnil : reports r promises = []) :
    context.maxAcceptedId = -1 ∧ ∀ value, proposeValue value context = value := by
  rcases h.largest with ⟨-,hmax⟩ | ⟨b,hb,-⟩
  · exact ⟨hmax,fun value => by rw [proposeValue, if_pos hmax]⟩
  · exact absurd hb.1 (by simp [hnil])

/-- The order of the PROMISEs does not show. -/
theorem Collected.agree (h : Collected r promises context) (h' : Collected r promises' context')
    (hperm : promises'.Perm promises) (hall : Consistent promises) :
    context'.promiseCount = context.promiseCount ∧
    context'.maxAcceptedId = context.maxAcceptedId ∧
    ∀ value, proposeValue value context' = proposeValue value context := by
  have hreports : (reports r promises').Perm (reports r promises) :=
    (hperm.filter _).filterMap _
  refine ⟨by rw [h.count, h'.count, hperm.countP_eq],?_⟩
  rcases h'.largest with ⟨hnil,-⟩ | ⟨a,ha,-⟩
  · have hown := h.propose_own (hnil ▸ hreports).nil_eq.symm
    have hown' := h'.propose_own hnil
    exact ⟨hown'.1.trans hown.1.symm,fun value => (hown'.2 value).trans (hown.2 value).symm⟩
  · have hlargest : isLargest a (reports r promises) :=
      ⟨hreports.mem_iff.mp ha.1,fun b hb => ha.2 b (hreports.mem_iff.mpr hb)⟩
    have hall' : Consistent promises' := fun p hp q hq =>
      hall p (hperm.mem_iff.mp hp) q (hperm.mem_iff.mp hq)
    have hmost := h.propose hall hlargest
    have hmost' := h'.propose hall' ha
    exact ⟨hmost'.1.trans hmost.1.symm,fun value => (hmost'.2 value).trans (hmost.2 value).symm⟩

/-- The PROMISEs of a round may arrive in any order. The PROPOSE that goes out is for this round
and carries the value reported with the largest id, or the caller's own where none is reported. -/
theorem promises_in_any_order (rank : Fin n) (now later : Nat) (value : String)
    (hperm : promises'.Perm promises)
    (hid : ∀ p ∈ promises, ∀ a, p.accepted = some a → 0 ≤ a.1) (hall : Consistent promises) :
    let round := (broadcastPrepare rank now {}).2
    let context := collect promises round
    let context' := collect promises' round
    context'.promiseCount = context.promiseCount ∧
    context'.maxAcceptedId = context.maxAcceptedId ∧
    broadcastPropose rank later value context' = broadcastPropose rank later value context ∧
    broadcastPropose rank later value context =
      .propose (generateUniqueId rank later) round.roundId (proposeValue value context) ∧
    context.promiseCount = promises.countP (fun p => p.roundId == round.roundId) ∧
    (∀ a, isLargest a (reports round.roundId promises) →
      context.maxAcceptedId = a.1 ∧ proposeValue value context = a.2) ∧
    (reports round.roundId promises = [] →
      context.maxAcceptedId = -1 ∧ proposeValue value context = value) := by
  intro round context context'
  have hstart := collected_start rank now
  have h : Collected round.roundId promises context := collect_collected hstart hid
  have h' : Collected round.roundId promises' context' :=
    collect_collected hstart (fun p hp => hid p (hperm.mem_iff.mp hp))
  obtain ⟨hcount,hmax,hpropose⟩ := h.agree h' hperm hall
  have hsent : broadcastPropose rank later value context =
      .propose (generateUniqueId rank later) round.roundId (proposeValue value context) := by
    simp only [broadcastPropose, h.round]
  refine ⟨hcount,hmax,?_,hsent,h.count,?_,?_⟩
  · simp only [broadcastPropose, h.round, h'.round, hpropose]
  · intro a ha
    obtain ⟨hid',hvalue⟩ := h.propose hall ha
    exact ⟨hid',hvalue value⟩
  · intro hnil
    obtain ⟨hid',hvalue⟩ := h.propose_own hnil
    exact ⟨hid',hvalue value⟩

/-- Four PROMISEs, one of them of an older round. -/
def someReport : List Promise :=
  [⟨7,some (3,"b")⟩,⟨7,none⟩,⟨5,some (4,"c")⟩,⟨7,some (2,"a")⟩]

theorem promises_in_any_order_someReport :
    let round := (broadcastPrepare (0 : Fin 5) 7 {}).2
    (collect someReport.reverse round).promiseCount = 3 ∧
    broadcastPropose (0 : Fin 5) 8 "own" (collect someReport.reverse round) =
      .propose (generateUniqueId (0 : Fin 5) 8) round.roundId "b" := by
  obtain ⟨hcount,-,hpropose,hsent,-,hlargest,-⟩ := promises_in_any_order (0 : Fin 5) 7 8 "own"
    (List.reverse_perm someReport) (by decide) (by unfold Consistent; decide)
  have hvalue := (hlargest (3,"b") (by unfold isLargest; decide)).2
  rw [hvalue] at hsent
  exact ⟨hcount.trans (by decide),hpropose.trans hsent⟩

end Algorep.Proofs
