import Mathlib.Data.List.Basic

namespace Algorep.Kit

/-! Lists as vectors that are read and written at integer indices. An access out of bounds has
no result. -/

def InBounds (xs : List α) (index : Int) : Prop := 0 ≤ index ∧ index < xs.length

def readAt (xs : List α) (index : Int) : Option α :=
  if 0 ≤ index then xs[index.toNat]? else none

def writeAt (xs : List α) (index : Int) (a : α) : Option (List α) :=
  if 0 ≤ index ∧ index < xs.length then some (xs.set index.toNat a) else none

/-- What is new holds `a`. -/
def resize (xs : List α) (count : Nat) (a : α) : List α :=
  xs.take count ++ List.replicate (count - xs.length) a

/-- A loop that writes to the first `count` indices. -/
def assign (value : Nat → α) : Nat → List α → Option (List α)
  | 0, xs => some xs
  | count + 1, xs => (assign value count xs).bind (writeAt · count (value count))

variable {xs ys : List α}

theorem readAt_of_inBounds (h : InBounds xs index) : ∃ a, readAt xs index = some a := by
  have hlt : index.toNat < xs.length := by
    have := h.1
    have := h.2
    omega
  exact ⟨xs[index.toNat],by rw [readAt, if_pos h.1, List.getElem?_eq_getElem hlt]⟩

theorem writeAt_of_inBounds (h : InBounds xs index) (a : α) :
    writeAt xs index a = some (xs.set index.toNat a) :=
  if_pos h

theorem writeAt_inBounds (h : writeAt xs index a = some ys) :
    InBounds xs index ∧ ys = xs.set index.toNat a := by
  simp only [writeAt, Option.ite_none_right_eq_some, Option.some.injEq] at h
  exact ⟨h.1,h.2.symm⟩

theorem writeAt_length (h : writeAt xs index a = some ys) : ys.length = xs.length := by
  rw [(writeAt_inBounds h).2, List.length_set]

theorem writeAt_other (h : writeAt xs index a = some ys) (hne : other ≠ index) :
    readAt ys other = readAt xs other := by
  obtain ⟨⟨hnonneg,-⟩,rfl⟩ := writeAt_inBounds h
  unfold readAt
  split
  · rw [List.getElem?_set_ne (by omega)]
  · rfl

theorem resize_length (xs : List α) (count : Nat) (a : α) : (resize xs count a).length = count := by
  simp only [resize, List.length_append, List.length_take, List.length_replicate]
  omega

/-- The loop stays in bounds as long as the vector is long enough. -/
theorem assign_of_le (value : Nat → α) (xs : List α) (h : count ≤ xs.length) :
    assign value count xs = some ((List.range count).map value ++ xs.drop count) := by
  induction count with
  | zero => rfl
  | succ count ih =>
    have hbound : InBounds ((List.range count).map value ++ xs.drop count) count := by
      refine ⟨Int.natCast_nonneg _,?_⟩
      simp only [List.length_append, List.length_map, List.length_range, List.length_drop]
      omega
    have hcount : ((List.range count).map value).length = count := by simp
    have hdrop : xs.drop count = xs[count] :: xs.drop (count + 1) := List.drop_eq_getElem_cons h
    rw [assign, ih (by omega), Option.bind_some, writeAt_of_inBounds hbound, Int.toNat_natCast,
      List.set_append_right _ _ (Nat.le_of_eq hcount), hcount, Nat.sub_self, hdrop,
      List.set_cons_zero, List.range_succ, List.map_append, List.append_assoc]
    rfl

/-- A vector that is resized and then filled. -/
theorem assign_resize (value : Nat → α) (xs : List α) (count : Nat) (a : α) :
    assign value count (resize xs count a) = some ((List.range count).map value) := by
  have hlength := resize_length xs count a
  rw [assign_of_le value _ (Nat.le_of_eq hlength.symm),
    List.drop_eq_nil_of_le (Nat.le_of_eq hlength), List.append_nil]

end Algorep.Kit
