import Algorep.Program.Reception
import Algorep.Proofs.WireSurvival

namespace Algorep.Proofs
open Program Program.Json Program.Reception

section
variable (floats : Floats) (rank : Fin n) (tag : MessageTag) (onWorld : Bool)

/-- The message in a buffer that deserializes. -/
def readMessage (a : Arrival n) : Option MessageObject :=
  match Wire.receive floats a.buffer a.stack tag with
  | .message tag code id data =>
    some { tag := tagInt tag, code := code, id := id, data := some data, isValid := true }
  | _ => none

/-- The message in a buffer that deserializes and is not to be dropped. -/
def goodMessage (a : Arrival n) : Option MessageObject :=
  if shouldDrop rank tag onWorld a then none else readMessage floats tag a

/-- The result is the first good message, with its source; all that came before it has been
taken, and nothing that came after. -/
def IsFirstGood (arrivals : List (Arrival n)) : Result n → Prop
  | .returned srcNodeId message rest => ∃ before a, arrivals = before ++ a::rest ∧
      a.srcNodeId = srcNodeId ∧ goodMessage floats rank tag onWorld a = some message ∧
      ∀ b ∈ before, goodMessage floats rank tag onWorld b = none
  | .throws => False
  | .waits => ∀ a ∈ arrivals, goodMessage floats rank tag onWorld a = none

/-- Every buffer up to the first good one deserializes. -/
def readableSoFar (arrivals : List (Arrival n)) : Bool :=
  (arrivals.takeWhile (fun a => (goodMessage floats rank tag onWorld a).isNone)).all
    (fun a => (readMessage floats tag a).isSome)

end

section
variable {floats : Floats} {rank : Fin n} {tag : MessageTag} {onWorld : Bool}

theorem goodMessage_spec (h : goodMessage floats rank tag onWorld a = some m) :
    m.isValid = true ∧ shouldDrop rank tag onWorld a = false := by
  simp only [goodMessage, Option.ite_none_left_eq_some, Bool.not_eq_true] at h
  obtain ⟨hdrop,hread⟩ := h
  refine ⟨?_,hdrop⟩
  unfold readMessage at hread
  split at hread
  · cases hread
    rfl
  · contradiction

/-- A buffer that deserializes, seen by the loop. -/
theorem receive_read (hread : readMessage floats tag a = some m) (message : MessageObject)
    (rest : List (Arrival n)) :
    receiveWithTagBlock floats rank tag onWorld message (a::rest) =
      if shouldDrop rank tag onWorld a then receiveWithTagBlock floats rank tag onWorld m rest
      else .returned a.srcNodeId m rest := by
  unfold readMessage at hread
  split at hread
  · rename_i t code id data hreceived
    cases hread
    cases hdrop : shouldDrop rank tag onWorld a <;>
      simp [receiveWithTagBlock, hreceived, hdrop, overwrite]
  · contradiction

/-- One that does not deserialize ends the loop, whoever sent it. -/
theorem receive_unread (hread : readMessage floats tag a = none) (message : MessageObject)
    (rest : List (Arrival n)) :
    receiveWithTagBlock floats rank tag onWorld message (a::rest) =
      if Wire.receive floats a.buffer a.stack tag = .throws then .throws
      else .returned a.srcNodeId message rest := by
  unfold readMessage at hread
  cases hreceived : Wire.receive floats a.buffer a.stack tag with
  | message => simp [hreceived] at hread
  | throws => simp [receiveWithTagBlock, hreceived]
  | invalid => simp [receiveWithTagBlock, hreceived, overwrite]

theorem IsFirstGood.head (h : goodMessage floats rank tag onWorld a = some m)
    (rest : List (Arrival n)) :
    IsFirstGood floats rank tag onWorld (a::rest) (.returned a.srcNodeId m rest) :=
  ⟨[],a,rfl,rfl,h,by simp⟩

/-- A buffer that is passed over. -/
theorem isFirstGood_cons (h : goodMessage floats rank tag onWorld a = none) {result : Result n} :
    IsFirstGood floats rank tag onWorld (a::arrivals) result ↔
      IsFirstGood floats rank tag onWorld arrivals result := by
  cases result with
  | throws => exact Iff.rfl
  | waits => simp [IsFirstGood, h]
  | returned srcNodeId message rest =>
    constructor
    · rintro ⟨before,b,hsplit,hsrc,hgood,hnone⟩
      cases before with
      | nil =>
        cases hsplit
        simp [h] at hgood
      | cons c before =>
        cases hsplit
        exact ⟨before,b,rfl,hsrc,hgood,fun x hx => hnone x (List.mem_cons_of_mem _ hx)⟩
    · rintro ⟨before,b,rfl,hsrc,hgood,hnone⟩
      refine ⟨a::before,b,rfl,hsrc,hgood,?_⟩
      intro x hx
      rcases List.mem_cons.mp hx with rfl | hx
      · exact h
      · exact hnone x hx

/-- Nothing is returned out of turn. -/
theorem not_isFirstGood (h : goodMessage floats rank tag onWorld a = none)
    (message : MessageObject) (rest : List (Arrival n)) :
    ¬ IsFirstGood floats rank tag onWorld (a::rest) (.returned a.srcNodeId message rest) := by
  rw [isFirstGood_cons h]
  rintro ⟨before,b,hsplit,-⟩
  have hlength := congrArg List.length hsplit
  simp only [List.length_append, List.length_cons] at hlength
  omega

end

/-- The loop returns the first good message exactly when nothing that comes before it fails to
deserialize. -/
theorem first_good_message_iff (floats : Floats) (rank : Fin n) (tag : MessageTag)
    (onWorld : Bool) (message : MessageObject) (arrivals : List (Arrival n)) :
    IsFirstGood floats rank tag onWorld arrivals
        (receiveWithTagBlock floats rank tag onWorld message arrivals) ↔
      readableSoFar floats rank tag onWorld arrivals = true := by
  induction arrivals generalizing message with
  | nil => simp [receiveWithTagBlock, IsFirstGood, readableSoFar]
  | cons a rest ih =>
    cases hgood : goodMessage floats rank tag onWorld a with
    | some m =>
      have hread : readMessage floats tag a = some m := by
        simp only [goodMessage, Option.ite_none_left_eq_some] at hgood
        exact hgood.2
      have hdrop := (goodMessage_spec hgood).2
      rw [receive_read hread, if_neg (by simp [hdrop])]
      exact iff_of_true (.head hgood rest) (by simp [readableSoFar, hgood])
    | none =>
      cases hread : readMessage floats tag a with
      | some m =>
        have hdrop : shouldDrop rank tag onWorld a = true := by
          by_contra hno
          simp [goodMessage, hno, hread] at hgood
        rw [receive_read hread, if_pos hdrop, isFirstGood_cons hgood, ih]
        simp [readableSoFar, hgood, hread]
      | none =>
        have hbad : readableSoFar floats rank tag onWorld (a::rest) = false := by
          simp [readableSoFar, hgood, hread]
        rw [hbad]
        refine iff_of_false ?_ (by simp)
        rw [receive_unread hread]
        split
        · exact id
        · exact not_isFirstGood hgood message rest

/-- A STATE message with a log of a thousand characters. -/
def cutState (srcNodeId : Fin n) : Arrival n where
  srcNodeId := srcNodeId
  buffer := Wire.sendBuffer (Wire.serializeMessage (Wire.stateMessage 7 longLog)) []
  stack := []
  processIsAlive _ := true

/-- It is returned, and the message object is as it was. -/
theorem unread_message_returned : ¬ IsFirstGood noFloats (0 : Fin 2) .failureDetection true
    [cutState 1] (receiveWithTagBlock noFloats 0 .failureDetection true
      { tag := 0, code := 0, id := 0 } [cutState 1]) := by
  have hlength : Wire.maxMessageSize ≤ longLog.bytes.length :=
    Nat.le_of_eq List.length_replicate.symm
  have hinvalid : Wire.receive noFloats (cutState (1 : Fin 2)).buffer
      (cutState (1 : Fin 2)).stack .failureDetection = .invalid :=
    long_log_lost noFloats 7 longLog [] hlength
  have hgood : goodMessage noFloats (0 : Fin 2) .failureDetection true (cutState 1) = none := by
    simp [goodMessage, readMessage, hinvalid]
  have hreturned : receiveWithTagBlock noFloats (0 : Fin 2) .failureDetection true
      { tag := 0, code := 0, id := 0 } [cutState 1] =
        .returned 1 { tag := 0, code := 0, id := 0 } [] := by
    simp only [receiveWithTagBlock, hinvalid]
    rfl
  rw [hreturned]
  exact not_isFirstGood hgood _ []

end Algorep.Proofs
