import Algorep.Kit.Hosting
import Algorep.Kit.Lanes
import Algorep.Kit.Machine
import Mathlib.Data.List.Forall2

namespace Algorep.Kit

/-! Two networks with the same lanes and observations, whose processes keep and exchange the
same things in different forms. -/

variable {κ ι σ σ' α α' μ μ' ε β : Type}

/-- The two sends go to one process, with messages that agree. -/
inductive SendsAlike (C : μ → μ' → Prop) : Option (ι × μ) → Option (ι × μ') → Prop
  | none : SendsAlike C none none
  | some (dst : ι) (h : C m m') : SendsAlike C (some (dst,m)) (some (dst,m'))

theorem SendsAlike.symm {p : Option (ι × μ)} {p' : Option (ι × μ')} (h : SendsAlike C p p') :
    SendsAlike (fun m' m => C m m') p' p := by
  cases h with
  | none => exact .none
  | some dst hm => exact .some dst hm

namespace LaneNet

/-- The networks agree at every process and on every message in flight. -/
structure Agrees (S : ι → σ → σ' → Prop) (C : μ → μ' → Prop) (s : LaneNet κ ι σ μ)
    (s' : LaneNet κ ι σ' μ') : Prop where
  nodes : ∀ i, S i (s.nodes i) (s'.nodes i)
  chan : ∀ k a b, List.Forall₂ C (s.chan k a b) (s'.chan k a b)

variable [DecidableEq κ] [DecidableEq ι] {S : ι → σ → σ' → Prop} {C : μ → μ' → Prop}
  {s : LaneNet κ ι σ μ} {s' : LaneNet κ ι σ' μ'}

theorem handed_alike {lane : μ → κ} {lane' : μ' → κ} (hlane : ∀ m m', C m m' → lane' m' = lane m)
    {out : Outcome ι σ μ ε} {out' : Outcome ι σ' μ' ε} (h : SendsAlike C out.send out'.send)
    (k : κ) (b : ι) : List.Forall₂ C (handed lane out k b) (handed lane' out' k b) := by
  unfold handed
  generalize out.send = p at h
  generalize out'.send = p' at h
  cases h with
  | none => exact .nil
  | some dst hm =>
    dsimp only
    rw [hlane _ _ hm]
    split
    · exact .cons hm .nil
    · exact .nil

theorem Agrees.commit (h : Agrees S C s s') {lane : μ → κ} {lane' : μ' → κ}
    (hlane : ∀ m m', C m m' → lane' m' = lane m) {out : Outcome ι σ μ ε}
    {out' : Outcome ι σ' μ' ε} (hx : S i out.state out'.state)
    (hsend : SendsAlike C out.send out'.send) :
    Agrees S C (s.commit lane i out) (s'.commit lane' i out') := by
  refine ⟨?_,?_⟩
  · intro j
    by_cases hj : j = i
    · subst hj
      rwa [commit_self, commit_self]
    · rw [commit_other _ _ _ hj, commit_other _ _ _ hj]
      exact h.nodes j
  · intro k a b
    by_cases ha : a = i
    · subst ha
      rw [commit_chan_self, commit_chan_self]
      exact List.rel_append (h.chan k a b) (handed_alike hlane hsend k b)
    · rw [commit_chan_other _ _ _ _ _ ha, commit_chan_other _ _ _ _ _ ha]
      exact h.chan k a b

theorem Agrees.take (h : Agrees S C s s') (k : κ) (src dst : ι) (hx : S dst x x')
    (hrest : List.Forall₂ C rest rest') :
    Agrees S C (s.take k src dst rest x) (s'.take k src dst rest' x') := by
  refine ⟨?_,?_⟩
  · intro j
    by_cases hj : j = dst
    · subst hj
      rwa [take_self, take_self]
    · rw [take_other _ _ _ _ _ hj, take_other _ _ _ _ _ hj]
      exact h.nodes j
  · intro k' a b
    rw [take_chan, take_chan]
    split
    · exact hrest
    · exact h.chan k' a b

end LaneNet

def LaneLabel.map (φ : α → α') : LaneLabel κ ι α → LaneLabel κ ι α'
  | .act i a => .act i (φ a)
  | .receive k src dst => .receive k src dst

/-- Runs that go along with each other tell the same. -/
theorem toldBy_alike [DecidableEq ι] {S : ι → σ → σ' → Prop} {C : μ → μ' → Prop} {φ : α → α'}
    {told : σ → α → List β} {told' : σ' → α' → List β}
    {es : List (LaneNet κ ι σ μ × LaneLabel κ ι α)}
    {es' : List (LaneNet κ ι σ' μ' × LaneLabel κ ι α')}
    (htold : ∀ i x x' a, S i x x' → told' x' (φ a) = told x a)
    (h : List.Forall₂ (fun x x' => x.1.Agrees S C x'.1 ∧ x'.2 = x.2.map φ) es es') (i : ι) :
    toldBy told' i es' = toldBy told i es := by
  induction h with
  | nil => rfl
  | @cons x x' es es' hx _ ih =>
    obtain ⟨s,l⟩ := x
    obtain ⟨s',l'⟩ := x'
    obtain ⟨hag,rfl⟩ := hx
    rw [← List.singleton_append, toldBy_append, ih, ← List.singleton_append (l := es),
      toldBy_append]
    congr 1
    cases l with
    | act j a =>
      rw [LaneLabel.map, toldBy_act, toldBy_act, htold j _ _ a (hag.nodes j)]
    | receive => rfl

namespace LaneProcess

/-- Whatever a process of `P` does under `ok`, the process of `P'` in its place does by the
action that `φ` names. -/
structure Refines (P : LaneProcess κ ι σ α μ ε) (P' : LaneProcess κ ι σ' α' μ' ε)
    (S : ι → σ → σ' → Prop) (C : μ → μ' → Prop) (φ : α → α') (ok : ι → σ → α → Prop) : Prop where
  start : ∀ i, S i (P.start i) (P'.start i)
  lane : ∀ m m', C m m' → P'.lane m' = P.lane m
  act : ∀ i x x' a out, S i x x' → ok i x a → P.act i x a = some out →
    ∃ out', P'.act i x' (φ a) = some out' ∧ S i out.state out'.state ∧
      out'.events = out.events ∧ SendsAlike C out.send out'.send
  accept : ∀ i x x' k src m m' y, S i x x' → C m m' → P.accept i x k src m = some y →
    ∃ y', P'.accept i x' k src m' = some y' ∧ S i y y'

/-- Only actions are asked to meet `ok`. -/
def actsWell (ok : ι → σ → α → Prop) (s : LaneNet κ ι σ μ) : LaneLabel κ ι α → Prop
  | .act i a => ok i (s.nodes i) a
  | .receive _ _ _ => True

variable [DecidableEq κ] [DecidableEq ι] {P : LaneProcess κ ι σ α μ ε}
  {P' : LaneProcess κ ι σ' α' μ' ε} {S : ι → σ → σ' → Prop} {C : μ → μ' → Prop} {φ : α → α'}
  {ok : ι → σ → α → Prop} {s t : LaneNet κ ι σ μ} {s' : LaneNet κ ι σ' μ'}

/-- A step under `ok` is a step of the other network, with the same observations. -/
theorem Refines.step (h : P.Refines P' S C φ ok) (hag : s.Agrees S C s')
    (hok : actsWell ok s l) (hs : P.Step s l t e) :
    ∃ t', P'.network.step s' (l.map φ) = some (t',e) ∧ t.Agrees S C t' := by
  cases hs with
  | act i a out ho =>
    obtain ⟨out',ho',hx,hevents,hsend⟩ := h.act i _ _ a out (hag.nodes i) hok ho
    refine ⟨s'.commit P'.lane i out',?_,hag.commit h.lane hx hsend⟩
    simp [network, LaneProcess.step, LaneLabel.map, ho', hevents]
  | receive k src dst m rest x hc hx =>
    have hchan := hag.chan k src dst
    rw [hc] at hchan
    obtain ⟨m',rest',hm,hrest,hc'⟩ := List.forall₂_cons_left_iff.mp hchan
    obtain ⟨x',hx',hxx⟩ := h.accept dst _ _ k src m m' x (hag.nodes dst) hm hx
    refine ⟨s'.take k src dst rest' x',?_,hag.take k src dst hxx hrest⟩
    simp [network, LaneProcess.step, LaneLabel.map, hc', hx']

/-- Every run under `ok` is a run of the other network, with the same history. -/
theorem Refines.reach (h : P.Refines P' S C φ ok)
    (hr : P.network.Reach (fun _ => actsWell ok) s es) :
    ∃ s', P'.network.Reach Machine.free s' es ∧ s.Agrees S C s' := by
  induction hr with
  | start => exact ⟨P'.network.start,.start,h.start,fun k a b => .nil⟩
  | step hr hok hs ih =>
    obtain ⟨s',hr',hag⟩ := ih
    obtain ⟨t',hs',hag'⟩ := h.step hag hok (step_of_eq hs)
    exact ⟨t',hr'.step trivial hs',hag'⟩

/-- The same for runs that are told by their moves, under a guard that the other network
meets too. -/
theorem Refines.reach_traced (h : P.Refines P' S C φ ok)
    {ok' : LaneNet κ ι σ' μ' → LaneLabel κ ι α' → Prop}
    {guard : LaneNet κ ι σ μ → LaneLabel κ ι α → Prop}
    (hguard : ∀ s s' l, s.Agrees S C s' → guard s l → actsWell ok s l ∧ ok' s' (l.map φ))
    (hr : P.network.traced.Reach (fun _ => guard) s es) :
    ∃ s' es', P'.network.traced.Reach (fun _ => ok') s' es' ∧ s.Agrees S C s' ∧
      List.Forall₂ (fun x x' => x.1.Agrees S C x'.1 ∧ x'.2 = x.2.map φ) es es' := by
  induction hr with
  | start => exact ⟨P'.network.start,[],.start,⟨h.start,fun k a b => .nil⟩,.nil⟩
  | @step s es l t x hr hok hs ih =>
    obtain ⟨s',es',hr',hag,hes⟩ := ih
    obtain ⟨rfl,e,he⟩ := Machine.traced_step hs
    obtain ⟨hwell,hok'⟩ := hguard _ _ _ hag hok
    obtain ⟨t',hs',hag'⟩ := h.step hag hwell (step_of_eq he)
    have htraced : P'.network.traced.step s' (l.map φ) = some (t',[(s',l.map φ)]) := by
      simp [Machine.traced, hs']
    exact ⟨t',_,hr'.step hok' htraced,hag',List.rel_append hes (.cons ⟨hag,rfl⟩ .nil)⟩

end LaneProcess

end Algorep.Kit
