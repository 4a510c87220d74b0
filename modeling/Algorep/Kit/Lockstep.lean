import Algorep.Kit.Machine

namespace Algorep.Kit.Machine

/-! Two machines that take the same steps, of states that go together. -/

/-- A step is possible at both or at neither, and leads to states that go together. -/
structure Lockstep (m : Machine σ α ε) (m' : Machine σ' α ε') (R : σ → σ' → Prop)
    (f : ε' → ε) : Prop where
  start : R m.start m'.start
  step : ∀ s s' a, R s s' →
    Option.Rel (fun p p' => R p.1 p'.1 ∧ p.2 = p'.2.map f) (m.step s a) (m'.step s' a)

variable {m : Machine σ α ε} {m' : Machine σ' α ε'} {R : σ → σ' → Prop} {f : ε' → ε}
  {ok : List ε → σ → α → Prop} {ok' : List ε' → σ' → α → Prop}

/-- A run of the one is a run of the other. -/
theorem Lockstep.reach (h : Lockstep m m' R f)
    (hok : ∀ s s' es a, R s s' → ok (es.map f) s a → ok' es s' a) (hr : m.Reach ok s es) :
    ∃ s' es', m'.Reach ok' s' es' ∧ R s s' ∧ es = es'.map f := by
  induction hr with
  | start => exact ⟨_,[],.start,h.start,rfl⟩
  | @step s es a t e hr ha hs ih =>
    obtain ⟨s',es',hr',hrel,rfl⟩ := ih
    have hstep := h.step s s' a hrel
    rw [hs] at hstep
    generalize hs' : m'.step s' a = p at hstep
    cases hstep with
    | @some _ p' hp =>
      obtain ⟨t',e'⟩ := p'
      obtain ⟨hrel',rfl⟩ := hp
      exact ⟨t',_,hr'.step (hok _ _ _ _ hrel ha) hs',hrel',List.map_append.symm⟩

/-- And the other way round. -/
theorem Lockstep.reach_back (h : Lockstep m m' R f)
    (hok : ∀ s s' es a, R s s' → ok' es s' a → ok (es.map f) s a) (hr : m'.Reach ok' s' es') :
    ∃ s, m.Reach ok s (es'.map f) ∧ R s s' := by
  induction hr with
  | start => exact ⟨_,.start,h.start⟩
  | @step s' es' a t' e' hr ha hs ih =>
    obtain ⟨s,hr',hrel⟩ := ih
    have hstep := h.step s s' a hrel
    rw [hs] at hstep
    generalize hs' : m.step s a = p at hstep
    cases hstep with
    | @some p _ hp =>
      obtain ⟨t,e⟩ := p
      obtain ⟨hrel',rfl⟩ := hp
      refine ⟨t,?_,hrel'⟩
      rw [List.map_append]
      exact hr'.step (hok _ _ _ _ hrel ha) hs'

end Algorep.Kit.Machine
