import Algorep.Kit.Machine
import Mathlib.Logic.Function.Basic
import Mathlib.Order.Basic

namespace Algorep.Kit

/-- A state and what each clock last showed. -/
structure Clocked (ι τ σ : Type) where
  state : σ
  clock : ι → τ

namespace Machine
variable [DecidableEq ι]

/-- The machine with a clock reading at every move, off the clock of the move's
owner. No clock goes back, and what a move leaves behind carries its reading. -/
def clocked [LE τ] [DecidableLE τ] (m : Machine σ α ε) (owner : α → ι) (first : τ) :
    Machine (Clocked ι τ σ) (τ × α) (τ × ε) where
  start := { state := m.start, clock := fun _ => first }
  step s l :=
    if s.clock (owner l.2) ≤ l.1 then
      (m.step s.state l.2).map (fun p =>
        ({ state := p.1, clock := Function.update s.clock (owner l.2) l.1 },
          p.2.map (fun e => (l.1,e))))
    else none

/-- A clocked move is a move of the machine. -/
theorem clocked_step [LE τ] [DecidableLE τ] {m : Machine σ α ε} {owner : α → ι} {first : τ}
    (h : (m.clocked owner first).step s (now,a) = some (t,es)) :
    s.clock (owner a) ≤ now ∧ ∃ e, m.step s.state a = some (t.state,e) ∧
      t.clock = Function.update s.clock (owner a) now ∧ es = e.map (fun x => (now,x)) := by
  simp only [clocked, Option.ite_none_right_eq_some, Option.map_eq_some_iff,
    Prod.mk.injEq] at h
  obtain ⟨hle,⟨u,e⟩,hstep,rfl,rfl⟩ := h
  exact ⟨hle,e,hstep,rfl,rfl⟩

/-- A clocked run with its readings forgotten is a run of the machine. -/
theorem Reach.unclocked [LE τ] [DecidableLE τ] {m : Machine σ α ε} {owner : α → ι} {first : τ}
    {ok : List (τ × ε) → Clocked ι τ σ → τ × α → Prop}
    (hr : (m.clocked owner first).Reach ok s es) : m.Reach free s.state (es.map Prod.snd) := by
  induction hr with
  | start => exact .start
  | @step s es l t e _ _ hs ih =>
    obtain ⟨now,a⟩ := l
    obtain ⟨-,x,hstep,-,rfl⟩ := clocked_step hs
    rw [List.map_append, List.map_map]
    simpa [Function.comp_def] using Reach.step ih trivial hstep

theorem clocked_clock_le [Preorder τ] [DecidableLE τ] {m : Machine σ α ε} {owner : α → ι}
    {first : τ} (h : (m.clocked owner first).step s (now,a) = some (t,es)) (i : ι) :
    s.clock i ≤ t.clock i := by
  obtain ⟨hle,-,-,hclock,-⟩ := clocked_step h
  rw [hclock]
  by_cases hi : i = owner a
  · subst hi
    simpa using hle
  · simp [hi]

/-- No clock shows less than at the start. -/
theorem Reach.first_le [Preorder τ] [DecidableLE τ] {m : Machine σ α ε} {owner : α → ι} {first : τ}
    {ok : List (τ × ε) → Clocked ι τ σ → τ × α → Prop}
    (hr : (m.clocked owner first).Reach ok s es) (i : ι) : first ≤ s.clock i := by
  induction hr with
  | start => exact le_refl first
  | step _ _ hs ih => exact ih.trans (clocked_clock_le hs i)

end Machine

end Algorep.Kit
