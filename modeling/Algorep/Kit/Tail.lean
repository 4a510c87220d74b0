import Mathlib.Data.List.Basic
import Mathlib.Data.List.TakeWhile

namespace Algorep.Kit

/-! A file to which whole lines are appended, and a reader that keeps its place in it. -/

/-- The lines as they stand in a file, each with its end. -/
def lined (stop : α) (lines : List (List α)) : List α := lines.flatMap (· ++ [stop])

@[simp] theorem lined_nil (stop : α) : lined stop [] = [] := rfl

@[simp] theorem lined_append (stop : α) (lines more : List (List α)) :
    lined stop (lines ++ more) = lined stop lines ++ lined stop more :=
  List.flatMap_append

@[simp] theorem lined_cons (stop : α) (line : List α) (lines : List (List α)) :
    lined stop (line::lines) = line ++ stop::lined stop lines := by
  simp [lined]

/-- The line that begins at a place, and the place behind it. At the end of the file there is
none, and the place stays. -/
def nextLine [BEq α] (stop : α) (file : List α) (place : Nat) : List α × Nat :=
  let rest := file.drop place
  let line := rest.takeWhile (· != stop)
  (line,place + line.length + if line.length < rest.length then 1 else 0)

/-- The reader's place is behind the lines that it has read. -/
structure ReadTo (stop : α) (lines seen : List (List α)) (place : Nat) : Prop where
  seen_prefix : seen <+: lines
  place_eq : place = (lined stop seen).length

theorem ReadTo.start (stop : α) (lines : List (List α)) : ReadTo stop lines [] 0 :=
  ⟨List.nil_prefix,rfl⟩

/-- Lines that are appended leave a reader where it is. -/
theorem ReadTo.append {lines : List (List α)} (h : ReadTo stop lines seen place)
    (more : List (List α)) :
    ReadTo stop (lines ++ more) seen place :=
  ⟨h.seen_prefix.trans (List.prefix_append lines more),h.place_eq⟩

section
variable [BEq α] [LawfulBEq α] {stop : α}

theorem takeWhile_line (h : stop ∉ line) (rest : List α) :
    (line ++ stop::rest).takeWhile (· != stop) = line := by
  have hline : ∀ a ∈ line, (a != stop) = true := by
    intro a ha
    simpa using fun he : a = stop => h (he ▸ ha)
  rw [List.takeWhile_append_of_pos hline]
  simp

/-- A reader has been through all the lines, or reads the next one. -/
theorem ReadTo.next (h : ReadTo stop lines seen place) (hstop : ∀ line ∈ lines, stop ∉ line) :
    (seen = lines ∧ nextLine stop (lined stop lines) place = ([],place)) ∨
    ∃ line place', nextLine stop (lined stop lines) place = (line,place') ∧
      ReadTo stop lines (seen ++ [line]) place' := by
  obtain ⟨⟨rest,rfl⟩,rfl⟩ := h
  have hrest : (lined stop (seen ++ rest)).drop (lined stop seen).length = lined stop rest := by
    rw [lined_append, List.drop_left]
  cases rest with
  | nil => exact .inl ⟨by simp,by simp [nextLine]⟩
  | cons line rest =>
    have hline : ((lined stop (line::rest)).takeWhile (· != stop)) = line := by
      rw [lined_cons]
      exact takeWhile_line (hstop line (by simp)) _
    have hnext : nextLine stop (lined stop (seen ++ line::rest)) (lined stop seen).length =
        (line,(lined stop seen).length + line.length + 1) := by
      have hlt : line.length < (lined stop (line::rest)).length := by
        rw [lined_cons, List.length_append, List.length_cons]
        omega
      simp only [nextLine, hrest, hline, if_pos hlt]
    refine .inr ⟨line,_,hnext,?_,?_⟩
    · exact ⟨rest,by simp⟩
    · simp only [lined_append, lined_cons, lined_nil, List.length_append, List.length_cons,
        List.length_nil]
      omega

end

end Algorep.Kit
