import Mathlib.Data.Set.Insert
import Mathlib.Data.List.Basic
import Mathlib.Logic.Relation

namespace Algorep.Kit

/-- A log and one copy of it. New entries reach the copy one by one over a queue
while the copy is linked; a copy that was unlinked is brought up to date by a
snapshot. Snapshots are sent in sessions, and while a session holds the log it
does not grow. `unsent` is what the log has and the queue has not been given yet;
`states` are the snapshots on their way, `answers` the sessions whose snapshot the
copy has installed and reported. -/
@[ext] structure Replica (κ V : Type) where
  leaderLog : List V
  log : List V
  waiting : List V
  unsent : List V
  linked : Bool
  holder : Option κ
  states : List (κ × List V)
  answers : Set κ

namespace Replica

/-- The session has no snapshot on its way and none reported. -/
def Fresh (r : Replica κ V) (k : κ) : Prop := (∀ p ∈ r.states, p.1 ≠ k) ∧ k ∉ r.answers

/-- The last two guards of `install`, and that of `relink`, are what keeps a copy
right; the others only say what a session is. -/
inductive Step : Replica κ V → Replica κ V → Prop
  | append (r : Replica κ V) (v : V) (hk : r.holder = none) (hu : r.unsent = []) :
      Step r { r with leaderLog := r.leaderLog ++ [v], unsent := [v] }
  | hand (r : Replica κ V) : Step r { r with
      unsent := []
      waiting := if r.linked then r.waiting ++ r.unsent else r.waiting }
  | deliver (r : Replica κ V) (v : V) (rest : List V) (hw : r.waiting = v::rest) :
      Step r { r with log := r.log ++ [v], waiting := rest }
  | unlink (r : Replica κ V) : Step r { r with linked := false }
  | lock (r : Replica κ V) (k : κ) (hk : r.holder = none) (hu : r.unsent = []) (hf : r.Fresh k) :
      Step r { r with holder := some k }
  | unlock (r : Replica κ V) : Step r { r with holder := none }
  | snapshot (r : Replica κ V) (k : κ) (hk : r.holder = some k) (hf : r.Fresh k) :
      Step r { r with states := r.states ++ [(k,r.leaderLog)] }
  | install (r : Replica κ V) (k : κ) (state : List V) (rest : List (κ × List V))
      (hs : r.states = (k,state)::rest) (hw : r.holder = some k → r.waiting = [])
      (hk : r.holder ≠ some k → r.linked = false) :
      Step r { r with log := state, states := rest, answers := insert k r.answers }
  | forget (r : Replica κ V) (answers : Set κ) (ha : answers ⊆ r.answers) :
      Step r { r with answers := answers }
  | relink (r : Replica κ V) (k : κ) (ha : k ∈ r.answers) (hk : r.holder = some k) :
      Step r { r with linked := true }

/-- The copy is right as far as it is linked. For the session that holds the log,
its snapshot is the last one on its way and is the log, and once it is reported
the copy is the log and nothing is on its way any more. -/
structure Synced (r : Replica κ V) : Prop where
  caughtUp : r.linked = true → r.log ++ r.waiting ++ r.unsent = r.leaderLog
  frozen : ∀ k, r.holder = some k → r.unsent = []
  current : ∀ k state, r.holder = some k → (k,state) ∈ r.states → state = r.leaderLog ∧
    ∃ before, r.states = before ++ [(k,state)] ∧ ∀ p ∈ before, p.1 ≠ k
  reported : ∀ k, r.holder = some k → k ∈ r.answers →
    r.states = [] ∧ r.waiting = [] ∧ r.log = r.leaderLog

theorem Synced.install {r : Replica κ V} (h : r.Synced) (hs : r.states = (k,state)::rest)
    (hw : r.holder = some k → r.waiting = []) (hk : r.holder ≠ some k → r.linked = false) :
    ({ r with log := state, states := rest, answers := insert k r.answers } :
      Replica κ V).Synced := by
  -- the snapshot of the holding session is the last, so nothing is left behind it
  have hlast : r.holder = some k → state = r.leaderLog ∧ rest = [] := by
    intro hh
    obtain ⟨he,before,hb,hne⟩ := h.current k state hh (hs ▸ List.mem_cons_self)
    refine ⟨he,?_⟩
    rw [hs] at hb
    cases before with
    | nil => simpa using hb
    | cons p before =>
      rw [List.cons_append, List.cons.injEq] at hb
      exact absurd hb.1 (fun hp => hne p List.mem_cons_self (hp ▸ rfl))
  constructor
  · intro hl
    by_cases hh : r.holder = some k
    · simp [hw hh, h.frozen k hh, (hlast hh).1]
    · exact absurd hl (by simp [hk hh])
  · exact h.frozen
  · intro k' state' hh hm
    obtain ⟨he,before,hb,hne⟩ := h.current k' state' hh (hs ▸ List.mem_cons_of_mem _ hm)
    refine ⟨he,?_⟩
    rw [hs] at hb
    cases before with
    | nil =>
      rw [List.nil_append, List.cons.injEq] at hb
      simp [hb.2] at hm
    | cons p before =>
      rw [List.cons_append, List.cons.injEq] at hb
      exact ⟨before,hb.2,fun q hq => hne q (List.mem_cons_of_mem _ hq)⟩
  · intro k' hh ha
    rcases ha with rfl | ha
    · exact ⟨(hlast hh).2,hw hh,(hlast hh).1⟩
    · have hnil := (h.reported k' hh ha).1
      simp [hs] at hnil

theorem Synced.step {r r' : Replica κ V} (h : r.Synced) (hs : Step r r') : r'.Synced := by
  cases hs with
  | append v hk hu =>
    refine ⟨?_,?_,?_,?_⟩
    · intro hl
      have hc := h.caughtUp hl
      rw [hu, List.append_nil] at hc
      simp [← hc]
    · intro k hh
      simp [hk] at hh
    · intro k state hh
      simp [hk] at hh
    · intro k hh
      simp [hk] at hh
  | hand =>
    refine ⟨?_,fun _ _ => rfl,h.current,?_⟩
    · intro hl
      have hl' : r.linked = true := hl
      simpa [hl'] using h.caughtUp hl'
    · intro k hh ha
      obtain ⟨hst,hw,hlog⟩ := h.reported k hh ha
      refine ⟨hst,?_,hlog⟩
      simp [hw, h.frozen k hh]
  | deliver v rest hw =>
    refine ⟨?_,h.frozen,h.current,?_⟩
    · intro hl
      have hc := h.caughtUp hl
      rw [hw] at hc
      simpa using hc
    · intro k hh ha
      have hnil := (h.reported k hh ha).2.1
      simp [hw] at hnil
  | unlink => exact ⟨fun hl => absurd hl (by simp),h.frozen,h.current,h.reported⟩
  | lock k hk hu hf =>
    refine ⟨h.caughtUp,fun _ _ => hu,?_,?_⟩
    · intro k' state hh hm
      cases hh
      exact absurd rfl (hf.1 _ hm)
    · intro k' hh ha
      cases hh
      exact absurd ha hf.2
  | unlock =>
    exact ⟨h.caughtUp,fun _ hh => by simp at hh,fun _ _ hh => by simp at hh,
      fun _ hh => by simp at hh⟩
  | snapshot k hk hf =>
    refine ⟨h.caughtUp,h.frozen,?_,?_⟩
    · intro k' state hh hm
      have he : k = k' := Option.some.inj (hk.symm.trans hh)
      subst he
      rcases List.mem_append.mp hm with hm | hm
      · exact absurd rfl (hf.1 _ hm)
      · rw [List.mem_singleton, Prod.mk.injEq] at hm
        exact ⟨hm.2,r.states,by rw [hm.2],hf.1⟩
    · intro k' hh ha
      have he : k = k' := Option.some.inj (hk.symm.trans hh)
      subst he
      exact absurd ha hf.2
  | install k state rest hs hw hk => exact h.install hs hw hk
  | forget answers ha => exact ⟨h.caughtUp,h.frozen,h.current,fun k hh hm => h.reported k hh (ha hm)⟩
  | relink k ha hk =>
    obtain ⟨hst,hw,hlog⟩ := h.reported k hk ha
    refine ⟨?_,h.frozen,h.current,h.reported⟩
    intro _
    simp [hw, hlog, h.frozen k hk]

/-- Every run of the abstract steps keeps the copy right. -/
theorem Synced.steps {r r' : Replica κ V} (h : r.Synced)
    (hs : Relation.ReflTransGen Step r r') : r'.Synced := by
  induction hs with
  | refl => exact h
  | tail _ hs ih => exact ih.step hs

/-- With nothing on its way, a linked copy is the log. -/
theorem Synced.settled {r : Replica κ V} (h : r.Synced) (hl : r.linked = true)
    (hw : r.waiting = []) (hu : r.unsent = []) : r.log = r.leaderLog := by
  have hc := h.caughtUp hl
  rw [hw, hu] at hc
  simpa using hc

end Replica

end Algorep.Kit
