import Algorep.Proofs.Recorded

namespace Algorep.Proofs
open Kit Program Program.Consensus

/-- Which event of its sender a packet comes from. -/
def Sourced (h : List (Obs (Fin n) Packet (Event n))) (dst : Fin n) (packet : Packet) : Prop :=
  match packet.message with
  | .prepare pid => ∃ v, .did (.called packet.call v pid) ∈ h
  | .promise _ roundId _ => .did (.promised dst packet.call roundId) ∈ h
  | .propose _ roundId value =>
    ∃ context, .did (.proposed packet.call context value) ∈ h ∧ roundId = context.roundId
  | .accept _ _ => ∃ roundId value, .did (.accepted dst packet.call roundId value) ∈ h
  | .accepted _ _ value => .did (.announced packet.call value) ∈ h

/-- Which received packet an event of an acceptor or learner answers. -/
def Prompted (rank : Fin n) (h : List (Obs (Fin n) Packet (Event n))) : Event n → Prop
  | .promised src c roundId => .received src ⟨.prepare roundId,c⟩ ∈ h
  | .accepted src c roundId value => ∃ pid, .received src ⟨.propose pid roundId value,c⟩ ∈ h
  | .appended src c value =>
    src = rank ∨ ∃ pid roundId, .received src ⟨.accepted pid roundId value,c⟩ ∈ h
  | _ => True

theorem Sourced.mono (hs : Sourced h dst packet) (hm : ∀ o ∈ h, o ∈ h') :
    Sourced h' dst packet := by
  unfold Sourced at hs ⊢
  split at hs
  · obtain ⟨v,hv⟩ := hs; exact ⟨v,hm _ hv⟩
  · exact hm _ hs
  · obtain ⟨context,hc,he⟩ := hs; exact ⟨context,hm _ hc,he⟩
  · obtain ⟨roundId,value,hv⟩ := hs; exact ⟨roundId,value,hm _ hv⟩
  · exact hm _ hs

theorem Prompted.mono (hs : Prompted rank h e) (hm : ∀ o ∈ h, o ∈ h') : Prompted rank h' e := by
  cases e with
  | promised => exact hm _ hs
  | accepted => obtain ⟨pid,hp⟩ := hs; exact ⟨pid,hm _ hp⟩
  | appended =>
    rcases hs with rfl | ⟨pid,roundId,hp⟩
    · exact .inl rfl
    · exact .inr ⟨pid,roundId,hm _ hp⟩
  | _ => trivial

theorem run_recorded (hr : LocalRun (process n) (Foreign rank) rank s h) : Recorded rank s h := by
  induction hr with
  | start =>
    exact ⟨.never rfl,fun c hlt => absurd hlt (Nat.not_lt_zero c),fun _ _ => rfl⟩
  | act _ _ ho ih => exact acts_recorded ih (acts_of_act ho)
  | handle _ hok ho ih => exact handles_recorded ih hok (handles_of_handle ho).2

/-- A broadcast sends the message its story has already told. -/
theorem acts_sourced {rank : Fin n} (hr : Recorded rank node h) (ha : Acts rank node a out)
    (hs : out.send = some (dst,packet)) : Sourced h dst packet := by
  have hcur := hr.current
  generalize he : ofCall rank node.calls h = es at hcur
  have hin : ∀ e ∈ es, .did e ∈ h := fun e hm => mem_of_ofCall (he ▸ hm)
  cases ha with
  | sentPrepare value m dst rest ht =>
    rw [ht] at hcur
    cases hs
    cases hcur
    exact ⟨value,hin _ List.mem_cons_self⟩
  | sentPropose value m dst rest ht =>
    rw [ht] at hcur
    cases hs
    cases hcur with
    | propose context hsuf => exact ⟨context,hin _ (by simp),rfl⟩
  | sentAccepted value m dst rest ht =>
    rw [ht] at hcur
    cases hs
    cases hcur
    exact hin (.announced _ _) (by simp)
  | _ => cases hs

theorem handles_sourced {rank : Fin n} (ha : Handles rank node src packet now out)
    (hs : out.send = some (dst,packet')) : Sourced out.trace dst packet' := by
  cases ha with
  | promised pid hm hid => cases hs; simp [Sourced, Outcome.trace]
  | accepted pid roundId value hm hid =>
    cases hs
    exact ⟨roundId,value,by simp [Outcome.trace]⟩
  | _ => cases hs

theorem mem_trace {out : Result n} :
    o ∈ out.trace ↔ (∃ e ∈ out.events, o = .did e) ∨
      ∃ dst packet, out.send = some (dst,packet) ∧ o = .sent dst packet := by
  unfold Outcome.trace
  cases hs : out.send with
  | none => simp [eq_comm]
  | some p =>
    obtain ⟨d,m⟩ := p
    simp only [List.mem_append, List.mem_map, Option.map_some, Option.toList_some,
      List.mem_singleton, Option.some.injEq, Prod.mk.injEq, and_assoc]
    constructor
    · rintro (⟨e,he,rfl⟩ | rfl)
      · exact .inl ⟨e,he,rfl⟩
      · exact .inr ⟨d,m,rfl,rfl,rfl⟩
    · rintro (⟨e,he,rfl⟩ | ⟨_,_,rfl,rfl,rfl⟩)
      · exact .inl ⟨e,he,rfl⟩
      · exact .inr rfl

/-- Every packet a node has sent comes from an event of its own history. -/
theorem run_sourced (hr : LocalRun (process n) (Foreign rank) rank s h)
    (hm : .sent dst packet ∈ h) : Sourced h dst packet := by
  induction hr with
  | start => simp at hm
  | @act s h a out hr _ ho ih =>
    rcases List.mem_append.mp hm with hm | hm
    · exact (ih hm).mono (fun _ => List.mem_append_left _)
    · rcases mem_trace.mp hm with ⟨e,_,he⟩ | ⟨d,p,hs,he⟩
      · cases he
      · cases he
        exact (acts_sourced (run_recorded hr) (acts_of_act ho) hs).mono
          (fun _ => List.mem_append_left _)
  | @handle s h src m o out hr _ ho ih =>
    rcases List.mem_append.mp hm with hm | hm
    · exact (ih hm).mono (fun _ => List.mem_append_left _)
    · rcases List.mem_cons.mp hm with he | hm
      · cases he
      · rcases mem_trace.mp hm with ⟨e,_,he⟩ | ⟨d,p,hs,he⟩
        · cases he
        · cases he
          exact (handles_sourced (handles_of_handle ho).2 hs).mono
            (fun _ h => List.mem_append_right _ (List.mem_cons_of_mem _ h))

theorem acts_prompted {rank : Fin n} (ha : Acts rank node a out) (he : e ∈ out.events) :
    Prompted rank [] e := by
  cases ha
  all_goals simp only [List.mem_cons, List.not_mem_nil, or_false] at he
  all_goals subst e
  all_goals first | exact .inl rfl | trivial

theorem handles_prompted {rank : Fin n} (ha : Handles rank node src packet now out)
    (he : e ∈ out.events) : Prompted rank [.received src packet] e := by
  obtain ⟨m,c⟩ := packet
  cases ha with
  | promised pid hm hid =>
    simp only [List.mem_cons, List.not_mem_nil, or_false] at he
    subst e
    simpa [Prompted] using hm.symm
  | accepted pid roundId value hm hid =>
    simp only [List.mem_cons, List.not_mem_nil, or_false] at he
    subst e
    exact ⟨pid,by simpa using hm.symm⟩
  | learned pid roundId value hm =>
    simp only [List.mem_cons, List.not_mem_nil, or_false] at he
    subst e
    exact .inr ⟨pid,roundId,by simpa using hm.symm⟩
  | _ => cases he

/-- Every promise, acceptance and foreign append answers a received packet. -/
theorem run_prompted (hr : LocalRun (process n) (Foreign rank) rank s h)
    (hm : .did e ∈ h) : Prompted rank h e := by
  induction hr with
  | start => simp at hm
  | @act s h a out hr _ ho ih =>
    rcases List.mem_append.mp hm with hm | hm
    · exact (ih hm).mono (fun _ => List.mem_append_left _)
    · rcases mem_trace.mp hm with ⟨e,hmem,he⟩ | ⟨d,p,hs,he⟩
      · cases he
        exact (acts_prompted (acts_of_act ho) hmem).mono (by simp)
      · cases he
  | @handle s h src m o out hr _ ho ih =>
    rcases List.mem_append.mp hm with hm | hm
    · exact (ih hm).mono (fun _ => List.mem_append_left _)
    · rcases List.mem_cons.mp hm with he | hm
      · cases he
      · rcases mem_trace.mp hm with ⟨e,hmem,he⟩ | ⟨d,p,hs,he⟩
        · cases he
          refine (handles_prompted (handles_of_handle ho).2 hmem).mono ?_
          intro o ho
          rw [List.mem_singleton.mp ho]
          exact List.mem_append_right _ List.mem_cons_self
        · cases he

end Algorep.Proofs
