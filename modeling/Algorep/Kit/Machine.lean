import Mathlib.Data.List.Basic

namespace Algorep.Kit

/-- A deterministic labelled machine. The label resolves every choice, and one
step may leave several observations in the history. -/
structure Machine (σ α ε : Type) where
  start : σ
  step : σ → α → Option (σ × List ε)

namespace Machine

/-- The states a run reaches, each with the history of the run, when every step
is taken under the guard. The guard sees the history and the state before the step. -/
inductive Reach (m : Machine σ α ε) (ok : List ε → σ → α → Prop) : σ → List ε → Prop
  | start : Reach m ok m.start []
  | step : Reach m ok s es → ok es s a → m.step s a = some (t,e) → Reach m ok t (es ++ e)

/-- The guard of a run without conditions. -/
def free : List ε → σ → α → Prop := fun _ _ _ => True

/-- An invariant of the runs may be used as part of their guard. -/
theorem Reach.strengthen {m : Machine σ α ε} {ok : List ε → σ → α → Prop}
    {J : σ → List ε → Prop} (hr : m.Reach ok s es) (hinv : ∀ s es, m.Reach ok s es → J s es) :
    m.Reach (fun es s a => ok es s a ∧ J s es) s es := by
  induction hr with
  | start => exact .start
  | step hr hok hs ih => exact .step ih ⟨hok,hinv _ _ hr⟩ hs

/-- A run under one guard is a run under any other that its steps meet. -/
theorem Reach.imp {m : Machine σ α ε} {ok ok' : List ε → σ → α → Prop} (hr : m.Reach ok s es)
    (h : ∀ s es a, m.Reach ok s es → ok es s a → ok' es s a) : m.Reach ok' s es := by
  induction hr with
  | start => exact .start
  | step hr hok hs ih => exact .step ih (h _ _ _ hr hok) hs

/-- The machine from another state on. -/
def startingAt (m : Machine σ α ε) (s : σ) : Machine σ α ε := { m with start := s }

/-- A run goes on from the state it has come to. -/
theorem Reach.goesOn {m : Machine σ α ε} {ok : List ε → σ → α → Prop}
    (hu : m.Reach free u before) (hr : (m.startingAt u).Reach ok s es) :
    m.Reach free s (before ++ es) := by
  induction hr with
  | start =>
    rw [List.append_nil]
    exact hu
  | step hr hok hs ih =>
    rw [← List.append_assoc]
    exact ih.step trivial hs

/-- The machine that leaves its own steps behind: each label, with the state it was
taken in. -/
def traced (m : Machine σ α ε) : Machine σ α (σ × α) where
  start := m.start
  step s a := (m.step s a).map (fun p => (p.1,[(s,a)]))

theorem traced_step {m : Machine σ α ε} (h : m.traced.step s a = some (t,x)) :
    x = [(s,a)] ∧ ∃ e, m.step s a = some (t,e) := by
  simp only [traced, Option.map_eq_some_iff, Prod.mk.injEq] at h
  obtain ⟨⟨u,e⟩,hstep,rfl,rfl⟩ := h
  exact ⟨rfl,e,hstep⟩

/-- The history behind a run that tells its own steps. -/
def history (m : Machine σ α ε) (es : List (σ × α)) : List ε :=
  es.flatMap (fun x => ((m.step x.1 x.2).map Prod.snd).getD [])

theorem history_concat {m : Machine σ α ε} (es : List (σ × α)) (h : m.step s a = some (t,e)) :
    m.history (es ++ [(s,a)]) = m.history es ++ e := by
  simp [history, h]

theorem Reach.untraced {m : Machine σ α ε} {ok : List (σ × α) → σ → α → Prop}
    (hr : m.traced.Reach ok s es) : m.Reach free s (m.history es) := by
  induction hr with
  | start => exact .start
  | @step s es a t x hr hok hs ih =>
    obtain ⟨rfl,e,he⟩ := traced_step hs
    rw [history_concat es he]
    exact ih.step trivial he

/-- A run that tells its own steps has been through each shorter one. -/
theorem Reach.earlier {m : Machine σ α ε} {ok : List (σ × α) → σ → α → Prop}
    (hr : m.traced.Reach ok s es) (h : before <+: es) : ∃ u, m.traced.Reach ok u before := by
  induction hr with
  | start =>
    rw [List.prefix_nil.mp h]
    exact ⟨_,.start⟩
  | step hr hok hs ih =>
    obtain ⟨rfl,-⟩ := traced_step hs
    rcases List.prefix_concat_iff.mp h with rfl | h
    · exact ⟨_,.step hr hok hs⟩
    · exact ih h

/-- Each step was taken under the guard, in a state that the run had come to. -/
theorem Reach.taken {m : Machine σ α ε} {ok : List (σ × α) → σ → α → Prop}
    (hr : m.traced.Reach ok s es) (h : before ++ [(u,a)] <+: es) :
    m.traced.Reach ok u before ∧ ok before u a := by
  induction hr with
  | start => simp at h
  | step hr hok hs ih =>
    obtain ⟨rfl,-⟩ := traced_step hs
    rcases List.prefix_concat_iff.mp h with hall | h
    · obtain ⟨rfl,hlast⟩ := List.append_inj' hall rfl
      obtain ⟨rfl,rfl⟩ := Prod.mk.inj (List.singleton_inj.mp hlast)
      exact ⟨hr,hok⟩
    · exact ih h

/-- Runs a list of labels, testing the guard before each of them. -/
def follow (m : Machine σ α ε) (test : List ε → σ → α → Bool) :
    List α → σ → List ε → Option (σ × List ε)
  | [], s, es => some (s,es)
  | a::as, s, es =>
    match test es s a, m.step s a with
    | true, some (t,e) => follow m test as t (es ++ e)
    | _, _ => none

/-- An execution of the tested runner is a run under any guard the test decides. -/
theorem Reach.follow {m : Machine σ α ε} {ok : List ε → σ → α → Prop}
    {test : List ε → σ → α → Bool} (htest : ∀ es s a, test es s a = true → ok es s a)
    (hr : m.Reach ok s es) (h : m.follow test as s es = some (t,es')) : m.Reach ok t es' := by
  induction as generalizing s es with
  | nil =>
    simp only [Machine.follow, Option.some.injEq, Prod.mk.injEq] at h
    rcases h with ⟨rfl,rfl⟩
    exact hr
  | cons a as ih =>
    simp only [Machine.follow] at h
    split at h
    · rename_i ht hs
      exact ih (.step hr (htest _ _ _ ht) hs) h
    · contradiction

/-- What a tested execution shows about its last state holds of a reachable one. -/
theorem exists_reach {m : Machine σ α ε} {ok : List ε → σ → α → Prop}
    {test : List ε → σ → α → Bool} (htest : ∀ es s a, test es s a = true → ok es s a)
    {f : σ × List ε → β} (h : (m.follow test as m.start []).map f = some b) :
    ∃ s es, m.Reach ok s es ∧ f (s,es) = b := by
  cases hf : m.follow test as m.start [] with
  | none => simp [hf] at h
  | some c =>
    obtain ⟨t,es⟩ := c
    simp only [hf, Option.map_some, Option.some.injEq] at h
    exact ⟨t,es,Reach.follow htest .start hf,h⟩

end Machine

end Algorep.Kit
