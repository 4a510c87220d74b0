import Algorep.Proofs.FirstGoodMessage

namespace Algorep.Proofs
open Program Program.Json Program.Reception

/-- How the wait for a response ends: with the first buffer that arrives in time, or without
one. It may not have ended. -/
def answer : List (Poll n) → Option (Option (Arrival n))
  | [] => none
  | poll::polls =>
    match poll.arrived with
    | a::_ => some (some a)
    | [] => if poll.elapsed < responseWaitDuration then answer polls else some none

section
variable (floats : Floats)

/-- The message received in the attempt. -/
def readResponse (attempt : Attempt n) : Option MessageObject :=
  (answer attempt.polls).join.bind (readMessage floats .client)

def receivesSuccess (attempt : Attempt n) : Bool :=
  (readResponse floats attempt).any (fun m => m.code == codeInt .success)

/-- No message is received, and the code in the message object happens to be that of SUCCESS. -/
def misread (attempt : Attempt n) : Bool :=
  (readResponse floats attempt).isNone && attempt.code == codeInt .success

/-- No further attempt is made: SUCCESS is received, a buffer throws, or the wait goes on. -/
def isLast (attempt : Attempt n) : Bool :=
  match answer attempt.polls with
  | none => true
  | some none => false
  | some (some a) => receivesSuccess floats attempt ||
      Wire.receive floats a.buffer a.stack .client == .throws

/-- No attempt that is made is misread. -/
def neverMisread (attempts : List (Attempt n)) : Bool :=
  (attempts.takeWhile (fun a => !isLast floats a)).all (fun a => !misread floats a)

end

variable {floats : Floats} {rank : Fin n}

/-- The first buffer on the client's own connection is taken whatever it is. -/
theorem receive_pending (message : MessageObject) (a : Arrival n) (rest : List (Arrival n)) :
    receiveWithTag floats rank .client false message (a::rest) =
      if Wire.receive floats a.buffer a.stack .client = .throws then some .throws
      else some (.returned a.srcNodeId ((readMessage floats .client a).getD message) rest) := by
  have hdrop : shouldDrop rank .client false a = false := by
    simp [shouldDrop, messageShouldDrop]
  rw [receiveWithTag, hdrop, if_neg (by simp)]
  cases hread : readMessage floats .client a with
  | some m =>
    have hthrows : Wire.receive floats a.buffer a.stack .client ≠ .throws := by
      intro hthrows
      simp [readMessage, hthrows] at hread
    rw [receive_read hread, hdrop, if_neg (by simp), if_neg hthrows]
    rfl
  | none =>
    rw [receive_unread hread]
    split <;> rfl

theorem await_answer (message : MessageObject) (polls : List (Poll n)) :
    awaitResponse floats rank message [] polls =
      match answer polls with
      | none => .waits
      | some none => .finished message
      | some (some a) =>
        if Wire.receive floats a.buffer a.stack .client = .throws then .throws
        else .finished ((readMessage floats .client a).getD message) := by
  induction polls with
  | nil => rfl
  | cons poll polls ih =>
    simp only [awaitResponse, answer, List.nil_append]
    cases harrived : poll.arrived with
    | nil =>
      simp only [receiveWithTag]
      by_cases hlate : poll.elapsed < responseWaitDuration
      · simp only [if_pos hlate, ih]
      · simp only [if_neg hlate]
    | cons a rest =>
      rw [receive_pending]
      by_cases hthrows : Wire.receive floats a.buffer a.stack .client = .throws
      · simp only [if_pos hthrows]
      · simp only [if_neg hthrows]

/-- One attempt, and what follows it. -/
theorem replicate_cons (attempt : Attempt n) (attempts : List (Attempt n)) :
    replicate floats rank (attempt::attempts) =
      if receivesSuccess floats attempt then .returned attempt
      else if isLast floats attempt then
        if answer attempt.polls = none then .waits else .throws
      else if misread floats attempt then .returned attempt
      else replicate floats rank attempts := by
  have hwait : awaitResponse floats rank attempt.responseMessage [] attempt.polls = _ :=
    await_answer _ _
  simp only [replicate, hwait]
  match hanswer : answer attempt.polls with
  | none => simp [receivesSuccess, readResponse, isLast, hanswer]
  | some none =>
    have hread : readResponse floats attempt = none := by simp [readResponse, hanswer]
    simp [receivesSuccess, isLast, misread, hanswer, hread, Attempt.responseMessage]
  | some (some a) =>
    have hread : readResponse floats attempt = readMessage floats .client a := by
      simp [readResponse, hanswer]
    by_cases hthrows : Wire.receive floats a.buffer a.stack .client = .throws
    · have hnone : readMessage floats .client a = none := by simp [readMessage, hthrows]
      simp [receivesSuccess, isLast, hanswer, hread, hnone, hthrows]
    · cases hm : readMessage floats .client a with
      | none =>
        simp [receivesSuccess, isLast, misread, hanswer, hread, hm, hthrows,
          Attempt.responseMessage]
      | some m =>
        by_cases hcode : m.code = codeInt .success <;>
          simp [receivesSuccess, isLast, misread, hanswer, hread, hm, hthrows, hcode]

/-- The loop is left in an attempt that receives SUCCESS, exactly when no attempt that is made
is misread. -/
theorem returns_on_success_iff (floats : Floats) (rank : Fin n) (attempts : List (Attempt n)) :
    (∀ last, replicate floats rank attempts = .returned last →
        receivesSuccess floats last = true) ↔ neverMisread floats attempts = true := by
  induction attempts with
  | nil => simp [replicate, neverMisread]
  | cons attempt attempts ih =>
    rw [replicate_cons]
    cases hsuccess : receivesSuccess floats attempt with
    | true =>
      have hlast : isLast floats attempt = true := by
        unfold isLast
        split <;> simp_all [receivesSuccess, readResponse]
      simp [neverMisread, hlast, hsuccess]
    | false =>
      cases hlast : isLast floats attempt with
      | true =>
        have hnot : ∀ last : Attempt n, (if answer attempt.polls = none then Replication.waits
            else .throws) ≠ .returned last := by
          intro last
          split <;> simp
        simp [neverMisread, hlast, hnot]
      | false =>
        cases hmisread : misread floats attempt with
        | true => simp [neverMisread, hlast, hmisread, hsuccess]
        | false => simpa [neverMisread, hlast, hmisread] using ih

/-- Forty seconds pass, and the number that the message object holds is that of SUCCESS. -/
def timedOut : Attempt 1 :=
  { tag := 0, code := 4, id := 0, polls := [{ arrived := [], elapsed := 40 }] }

theorem returned_without_success : ¬ ∀ last, replicate noFloats 0 [timedOut] = .returned last →
    receivesSuccess noFloats last = true := by
  intro h
  have hreturned := h timedOut rfl
  simp [receivesSuccess, readResponse, timedOut, answer, responseWaitDuration] at hreturned

end Algorep.Proofs
