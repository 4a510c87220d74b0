import Algorep.Kit.Network
import Mathlib.Data.List.Count
import Mathlib.Data.List.FinRange
import Mathlib.Data.List.Perm.Basic

namespace Algorep.Kit

section Peers
variable (f : μ → Bool)

/-- The peers a process has received messages of a kind from, one entry a message. -/
def sendersOf (h : List (Obs ι μ ε)) : List ι :=
  h.filterMap (fun o => match o with
    | .received a m => if f m then some a else none
    | _ => none)

/-- The peers a process has sent messages of a kind to, one entry a message. -/
def targetsOf (h : List (Obs ι μ ε)) : List ι :=
  h.filterMap (fun o => match o with
    | .sent b m => if f m then some b else none
    | _ => none)

@[simp] theorem sendersOf_nil : sendersOf f ([] : List (Obs ι μ ε)) = [] := rfl

@[simp] theorem targetsOf_nil : targetsOf f ([] : List (Obs ι μ ε)) = [] := rfl

@[simp] theorem sendersOf_append (h h' : List (Obs ι μ ε)) :
    sendersOf f (h ++ h') = sendersOf f h ++ sendersOf f h' :=
  List.filterMap_append

@[simp] theorem targetsOf_append (h h' : List (Obs ι μ ε)) :
    targetsOf f (h ++ h') = targetsOf f h ++ targetsOf f h' :=
  List.filterMap_append

@[simp] theorem sendersOf_received (a : ι) (m : μ) (h : List (Obs ι μ ε)) :
    sendersOf f (.received a m::h) = (if f m then [a] else []) ++ sendersOf f h := by
  cases hm : f m <;> simp [sendersOf, hm]

@[simp] theorem targetsOf_received (a : ι) (m : μ) (h : List (Obs ι μ ε)) :
    targetsOf f (.received a m::h) = targetsOf f h := rfl

@[simp] theorem sendersOf_trace (out : Outcome ι σ μ ε) : sendersOf f out.trace = [] := by
  simp only [sendersOf, Outcome.trace, List.filterMap_append, List.filterMap_map]
  cases out.send <;> simp

theorem targetsOf_trace (out : Outcome ι σ μ ε) : targetsOf f out.trace =
    (out.send.bind (fun p => if f p.2 then some p.1 else none)).toList := by
  simp only [targetsOf, Outcome.trace, List.filterMap_append, List.filterMap_map]
  cases out.send with
  | none => simp
  | some p => cases hp : f p.2 <;> simp [hp]

theorem mem_sendersOf {f : μ → Bool} {h : List (Obs ι μ ε)} :
    a ∈ sendersOf f h ↔ ∃ m, f m = true ∧ .received a m ∈ h := by
  simp only [sendersOf, List.mem_filterMap]
  constructor
  · rintro ⟨o,hm,ho⟩
    cases o with
    | received c m =>
      simp only [Option.ite_none_right_eq_some, Option.some.injEq] at ho
      rcases ho with ⟨hf,rfl⟩
      exact ⟨m,hf,hm⟩
    | did _ | sent _ _ => simp at ho
  · rintro ⟨m,hf,hm⟩
    exact ⟨_,hm,by simp [hf]⟩

variable [DecidableEq ι]

theorem count_sendersOf (a : ι) (h : List (Obs ι μ ε)) :
    (sendersOf f h).count a = (receivedFrom a h).countP f := by
  induction h with
  | nil => rfl
  | cons o h ih =>
    cases o with
    | received c m =>
      rw [sendersOf_received, receivedFrom_received, List.count_append, ih]
      by_cases hc : c = a
      · cases hf : f m <;> simp [hc, hf, Nat.add_comm]
      · cases hf : f m <;> simp [hc]
    | did _ | sent _ _ => exact ih

theorem count_targetsOf (b : ι) (h : List (Obs ι μ ε)) :
    (targetsOf f h).count b = (sentTo b h).countP f := by
  induction h with
  | nil => rfl
  | cons o h ih =>
    cases o with
    | sent d m =>
      have ht : targetsOf f (.sent d m::h) = (if f m then [d] else []) ++ targetsOf f h := by
        cases hm : f m <;> simp [targetsOf, hm]
      have hs : sentTo b (.sent d m::h) = if d = b then m::sentTo b h else sentTo b h := by
        by_cases hd : d = b <;> simp [sentTo, hd]
      rw [ht, hs, List.count_append, ih]
      by_cases hd : d = b
      · cases hf : f m <;> simp [hd, hf, Nat.add_comm]
      · cases hf : f m <;> simp [hd]
    | did _ | received _ _ => exact ih

end Peers

section Groups
variable [DecidableEq ι]

theorem flatMap_only {l : List ι} (hn : l.Nodup) (ha : a ∈ l) (xs : List β) :
    l.flatMap (fun p => if p = a then xs else []) = xs := by
  induction l with
  | nil => contradiction
  | cons b l ih =>
    obtain ⟨hb,hn⟩ := List.nodup_cons.mp hn
    rw [List.flatMap_cons]
    by_cases hba : b = a
    · have hnone : l.flatMap (fun p => if p = a then xs else []) = [] := by
        rw [List.flatMap_eq_nil_iff]
        intro p hp
        refine if_neg ?_
        rintro rfl
        exact hb (hba ▸ hp)
      rw [if_pos hba, hnone, List.append_nil]
    · rw [if_neg hba, List.nil_append]
      exact ih hn (List.mem_of_ne_of_mem (Ne.symm hba) ha)

/-- A list is made up of the parts that belong to each process. -/
theorem perm_groups (f : β → Fin n) (l : List β) :
    l.Perm ((List.finRange n).flatMap (fun p => l.filter (fun x => f x = p))) := by
  induction l with
  | nil => simp
  | cons x l ih =>
    have hsplit : ∀ p, (x::l).filter (fun y => f y = p) =
        (if p = f x then [x] else []) ++ l.filter (fun y => f y = p) := by
      intro p
      by_cases hp : f x = p
      · simp [hp]
      · simp [hp, Ne.symm hp]
    simp only [hsplit]
    refine .trans ?_ (List.flatMap_append_perm _ _ _)
    rw [flatMap_only (List.nodup_finRange n) (List.mem_finRange _)]
    exact ih.cons x

end Groups

namespace Process
variable [DecidableEq ι]

/-- No more messages of a kind arrive than were handed over for sending. -/
theorem count_senders_le {P : Process ι σ α τ μ ε}
    {ok : List (ι × Obs ι μ ε) → Net ι σ μ → Links ι × Label ι α τ → Prop}
    (hr : P.network.Reach ok s es) (f : μ → Bool) (a b : ι) :
    (sendersOf f (historyAt b es)).count a ≤ (targetsOf f (historyAt a es)).count b := by
  rw [count_sendersOf, count_targetsOf]
  exact ((List.sublist_append_left _ _).trans (fifo hr a b)).countP_le

end Process

end Algorep.Kit
