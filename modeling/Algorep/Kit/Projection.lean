import Algorep.Kit.Lanes
import Algorep.Kit.Machine

namespace Algorep.Kit

/-! A network seen through a projection, which forgets a part of every process's state
and some of the messages. -/

namespace LaneNet

def project (f : σ → σ') (g : μ → Option μ') (s : LaneNet κ ι σ μ) : LaneNet κ ι σ' μ' where
  nodes i := f (s.nodes i)
  chan k a b := (s.chan k a b).filterMap g

end LaneNet

/-- What is left of the message an outcome hands over. -/
def projectSend (g : μ → Option μ') (send : Option (ι × μ)) : Option (ι × μ') :=
  send.bind (fun p => (g p.2).map (fun m => (p.1,m)))

namespace LaneProcess

/-- `P'` is what a projection leaves of `P`: every action of `P` is one of `P'`, or leaves
no trace in it. `J` is an invariant of the processes of `P`. -/
structure Projects (P : LaneProcess κ ι σ α μ ε) (P' : LaneProcess κ ι σ' α' μ' ε')
    (f : σ → σ') (g : μ → Option μ') (J : ι → σ → Prop) : Prop where
  start : ∀ i, f (P.start i) = P'.start i
  lane : ∀ m m', g m = some m' → P'.lane m' = P.lane m
  act : ∀ i x a out, J i x → P.act i x a = some out →
    (f out.state = f x ∧ projectSend g out.send = none) ∨
    ∃ a' out', P'.act i (f x) a' = some out' ∧ out'.state = f out.state ∧
      out'.send = projectSend g out.send
  accept : ∀ i x k src m y, P.accept i x k src m = some y →
    match g m with
    | none => f y = f x
    | some m' => P'.accept i (f x) k src m' = some (f y)
  inv_start : ∀ i, J i (P.start i)
  inv_act : ∀ i x a out, J i x → P.act i x a = some out → J i out.state
  inv_accept : ∀ i x k src m y, J i x → P.accept i x k src m = some y → J i y

variable [DecidableEq κ] [DecidableEq ι] {P : LaneProcess κ ι σ α μ ε}
  {P' : LaneProcess κ ι σ' α' μ' ε'} {f : σ → σ'} {g : μ → Option μ'}
  {J : ι → σ → Prop}

theorem Projects.handed (h : P.Projects P' f g J) {out : Outcome ι σ μ ε} {out' : Outcome ι σ' μ' ε'}
    (hs : out'.send = projectSend g out.send) (k : κ) (b : ι) :
    (LaneNet.handed P.lane out k b).filterMap g = LaneNet.handed P'.lane out' k b := by
  unfold LaneNet.handed
  rw [hs]
  cases out.send with
  | none => rfl
  | some p =>
    obtain ⟨dst,m⟩ := p
    cases hg : g m with
    | none =>
      simp only [projectSend, Option.bind_some, hg, Option.map_none]
      split <;> simp [hg]
    | some m' =>
      simp only [projectSend, Option.bind_some, hg, Option.map_some, h.lane m m' hg]
      split <;> simp [hg]

theorem Projects.commit (h : P.Projects P' f g J) {out : Outcome ι σ μ ε}
    {out' : Outcome ι σ' μ' ε'} (hx : out'.state = f out.state)
    (hs : out'.send = projectSend g out.send) (s : LaneNet κ ι σ μ) (i : ι) :
    (s.commit P.lane i out).project f g = (s.project f g).commit P'.lane i out' := by
  unfold LaneNet.project LaneNet.commit
  congr
  · funext j
    by_cases hj : j = i
    · subst hj
      simp [hx]
    · simp [hj]
  · funext k a b
    by_cases ha : a = i
    · simp only [ha, ↓reduceIte, List.filterMap_append, h.handed hs]
    · simp only [ha, ↓reduceIte]

/-- An outcome without a trace. -/
theorem Projects.commit_hidden (h : P.Projects P' f g J) {s : LaneNet κ ι σ μ}
    {out : Outcome ι σ μ ε} (hx : f out.state = f (s.nodes i))
    (hs : projectSend g out.send = none) :
    (s.commit P.lane i out).project f g = s.project f g := by
  have hout : LaneNet.commit P'.lane (s.project f g) i
      ({ state := f out.state } : Outcome ι σ' μ' ε') = s.project f g := by
    unfold LaneNet.project LaneNet.commit
    congr
    · funext j
      by_cases hj : j = i
      · subst hj
        simp [hx]
      · simp [hj]
    · funext k a b
      simp [LaneNet.handed]
  rw [← hout]
  exact h.commit rfl hs.symm s i

theorem project_take (s : LaneNet κ ι σ μ) (k : κ) (src dst : ι) (rest : List μ) (x : σ) :
    (s.take k src dst rest x).project f g =
      (s.project f g).take k src dst (rest.filterMap g) (f x) := by
  unfold LaneNet.project LaneNet.take
  congr
  · funext j
    by_cases hj : j = dst
    · subst hj
      simp
    · simp [hj]
  · funext k' a b
    dsimp only
    split <;> rfl

theorem Projects.inv_step (h : P.Projects P' f g J) {s t : LaneNet κ ι σ μ}
    (hj : ∀ i, J i (s.nodes i)) (hs : P.Step s l t e) (i : ι) : J i (t.nodes i) := by
  cases hs with
  | act j a out ho =>
    by_cases hi : i = j
    · subst hi
      rw [LaneNet.commit_self]
      exact h.inv_act i _ a out (hj i) ho
    · rw [LaneNet.commit_other _ _ _ hi]
      exact hj i
  | receive k src dst m rest x hc hx =>
    by_cases hi : i = dst
    · subst hi
      rw [LaneNet.take_self]
      exact h.inv_accept i _ k src m x (hj i) hx
    · rw [LaneNet.take_other _ _ _ _ _ hi]
      exact hj i

/-- A message that is taken is taken in the projection, if it is there. -/
theorem Projects.receive (h : P.Projects P' f g J) {s : LaneNet κ ι σ μ}
    (hc : s.chan k src dst = m::rest) (hx : P.accept dst (s.nodes dst) k src m = some x) :
    match g m with
    | none => (s.take k src dst rest x).project f g = s.project f g
    | some _ => P'.network.step (s.project f g) (.receive k src dst) =
        some ((s.take k src dst rest x).project f g,[]) := by
  have hacc := h.accept dst (s.nodes dst) k src m x hx
  have hchan : (s.project f g).chan k src dst = (m::rest).filterMap g := by
    rw [← hc]
    rfl
  have htake := project_take (f := f) (g := g) s k src dst rest x
  cases hg : g m with
  | none =>
    rw [hg] at hacc
    rw [htake]
    rw [List.filterMap_cons_none hg] at hchan
    unfold LaneNet.take
    rw [← hchan, show f x = (s.project f g).nodes dst from hacc, Function.update_eq_self]
    congr
    funext k' a b
    split
    · rename_i hk
      rw [hk.1, hk.2.1, hk.2.2]
      rfl
    · rfl
  | some m' =>
    rw [hg] at hacc
    rw [List.filterMap_cons_some hg] at hchan
    have hacc' : P'.accept dst ((s.project f g).nodes dst) k src m' = some (f x) := hacc
    simp only [network, LaneProcess.step, hchan, hacc', Option.map_some, Option.some.injEq,
      Prod.mk.injEq, and_true]
    exact htake.symm

/-- A step of `P` is a step of `P'` or leaves no trace in it. -/
theorem Projects.step (h : P.Projects P' f g J) {s t : LaneNet κ ι σ μ}
    (hj : ∀ i, J i (s.nodes i)) (hs : P.Step s l t e) :
    t.project f g = s.project f g ∨
      ∃ l' e', P'.network.step (s.project f g) l' = some (t.project f g,e') := by
  cases hs with
  | act i a out ho =>
    rcases h.act i (s.nodes i) a out (hj i) ho with ⟨hx,hsend⟩ | ⟨a',out',ho',hx,hsend⟩
    · exact .inl (h.commit_hidden hx hsend)
    · refine .inr ⟨.act i a',out'.events.map (fun e => (i,e)),?_⟩
      have hnode : (s.project f g).nodes i = f (s.nodes i) := rfl
      simp only [network, LaneProcess.step, hnode, ho', Option.map_some, Option.some.injEq,
        Prod.mk.injEq, and_true]
      exact (h.commit hx hsend s i).symm
  | receive k src dst m rest x hc hx =>
    have hreceive := h.receive hc hx
    split at hreceive
    · exact .inl hreceive
    · exact .inr ⟨_,_,hreceive⟩

/-- Every run of `P` projects to a run of `P'`. -/
theorem Projects.reach (h : P.Projects P' f g J) {s : LaneNet κ ι σ μ}
    (hr : P.network.Reach ok s es) : ∃ es', P'.network.Reach Machine.free (s.project f g) es' := by
  suffices hall : (∀ i, J i (s.nodes i)) ∧
      ∃ es', P'.network.Reach Machine.free (s.project f g) es' from hall.2
  induction hr with
  | start =>
    refine ⟨h.inv_start,[],?_⟩
    have hstart : P.network.start.project f g = P'.network.start := by
      unfold network LaneNet.project
      congr
      funext i
      exact h.start i
    rw [hstart]
    exact .start
  | step hr hok hs ih =>
    obtain ⟨hj,es',ih⟩ := ih
    refine ⟨h.inv_step hj (step_of_eq hs),?_⟩
    rcases h.step hj (step_of_eq hs) with heq | ⟨l',e',hs'⟩
    · exact ⟨es',heq ▸ ih⟩
    · exact ⟨es' ++ e',ih.step trivial hs'⟩

end LaneProcess

end Algorep.Kit
