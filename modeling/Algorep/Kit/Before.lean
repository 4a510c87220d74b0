import Mathlib.Data.List.Basic

namespace Algorep.Kit

/-- `Q x before` holds of every entry `x` of a history and what came before it. -/
def Preceded (Q : ε → List ε → Prop) (h : List ε) : Prop :=
  ∀ before x after, h = before ++ x::after → Q x before

theorem Preceded.nil {Q : ε → List ε → Prop} : Preceded Q [] := by
  intro before x after he
  simp at he

theorem Preceded.append {Q : ε → List ε → Prop} (h : Preceded Q es)
    (h' : ∀ before x after, es' = before ++ x::after → Q x (es ++ before)) :
    Preceded Q (es ++ es') := by
  intro before x after he
  rcases List.append_eq_append_iff.mp he with ⟨mid,rfl,hes'⟩ | ⟨mid,hes,hx⟩
  · exact h' mid x after hes'
  · cases mid with
    | nil =>
      rw [List.nil_append] at hx
      rw [List.append_nil] at hes
      subst es
      simpa using h' [] x after (by simpa using hx.symm)
    | cons y mid =>
      rw [List.cons_append] at hx
      cases hx
      exact h before x mid hes

/-- Entries that ask for nothing may follow at any time. -/
theorem Preceded.append_free {Q : ε → List ε → Prop} (h : Preceded Q es)
    (h' : ∀ x ∈ es', ∀ before, Q x before) : Preceded Q (es ++ es') := by
  refine h.append ?_
  intro before x after he
  exact h' x (he ▸ List.mem_append_right _ List.mem_cons_self) _

theorem Preceded.snoc {Q : ε → List ε → Prop} (h : Preceded Q es) (hx : Q x es) :
    Preceded Q (es ++ [x]) := by
  refine h.append ?_
  intro before y after he
  cases before with
  | nil =>
    cases he
    simpa using hx
  | cons z before => simp at he

/-- A step of a run that adds at most one entry. -/
theorem Preceded.append_one {Q : ε → List ε → Prop} (h : Preceded Q es) (hl : es'.length ≤ 1)
    (hx : ∀ x ∈ es', Q x es) : Preceded Q (es ++ es') := by
  match es', hl with
  | [], _ => simpa using h
  | [x], _ => exact h.snoc (hx x List.mem_cons_self)

/-- What the last entry of a history that settles something says, and `d` while none
has. -/
def latest (f : ε → Option β) (d : β) (h : List ε) : β := h.foldl (fun x e => (f e).getD x) d

section Latest
variable (f : ε → Option β) (d : β)

@[simp] theorem latest_nil : latest f d [] = d := rfl

@[simp] theorem latest_cons (e : ε) (h : List ε) :
    latest f d (e::h) = latest f ((f e).getD d) h := rfl

theorem latest_append (h h' : List ε) : latest f d (h ++ h') = latest f (latest f d h) h' :=
  List.foldl_append

/-- Entries that settle nothing leave the last word where it was. -/
theorem latest_quiet {f : ε → Option β} (hq : ∀ e ∈ h', f e = none) :
    latest f d (h ++ h') = latest f d h := by
  rw [latest_append]
  generalize latest f d h = x
  induction h' generalizing x with
  | nil => rfl
  | cons e h' ih =>
    rw [latest_cons, hq e List.mem_cons_self]
    exact ih (fun e he => hq e (List.mem_cons_of_mem _ he)) x

end Latest

end Algorep.Kit
