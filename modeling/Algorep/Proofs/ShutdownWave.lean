import Algorep.Program.Shutdown
import Mathlib.Data.Nat.ModEq

namespace Algorep.Proofs
open Kit Program Program.Shutdown

/-- How far a caller is with its SHUTDOWN. -/
inductive CallStage
  | before
  | connected
  | sent

def stageOfCall : PortCall → CallStage
  | .connecting => .before
  | .connected 0 => .connected
  | .connected _ => .sent
  | .finished => .sent

def stageOfPhase : Phase n → CallStage
  | .calling call => stageOfCall call
  | _ => .before

def stage (s : Wave n) : Caller n → CallStage
  | none => stageOfCall s.client
  | some i => stageOfPhase (s.nodes i)

/-- The last node of the wave calls nobody. -/
def Calls (leader : Fin n) : Caller n → Prop
  | none => True
  | some i => next i ≠ leader

/-- The node a caller calls has not been reached before the call, and has a SHUTDOWN to
receive, or has received it, after. -/
inductive Linked (c : Caller n) : CallStage → Phase n → List ClientCode → Bool → Prop
  | waits : Linked c .before .accepting [] true
  | locking : Linked c .connected (.locking c) [] b
  | session : Linked c .connected (.session c) [] b
  | sentLocking : Linked c .sent (.locking c) (.shutdown::rest) b
  | sentSession : Linked c .sent (.session c) (.shutdown::rest) b
  | left (hleaves : phase.leaves = true) (hcaller : ∀ c', phase = .disconnecting c' → c' = c) :
      Linked c .sent phase codes b

theorem Linked.of_before (h : Linked c .before phase codes b) :
    phase = .accepting ∧ codes = [] ∧ b = true := by
  cases h
  exact ⟨rfl,rfl,rfl⟩

theorem Linked.of_connected (h : Linked c .connected phase codes b) :
    (phase = .locking c ∨ phase = .session c) ∧ codes = [] := by
  cases h with
  | locking => exact ⟨.inl rfl,rfl⟩
  | session => exact ⟨.inr rfl,rfl⟩

theorem Linked.of_locking (h : Linked c st (.locking c') codes b) :
    c' = c ∧ Linked c st (.session c') codes b := by
  cases h with
  | locking => exact ⟨rfl,.session⟩
  | sentLocking => exact ⟨rfl,.sentSession⟩
  | left hleaves => simp [Phase.leaves] at hleaves

theorem Linked.of_session (h : Linked c st (.session c') (code::codes) b) :
    c' = c ∧ st = .sent ∧ code = .shutdown := by
  cases h with
  | sentSession => exact ⟨rfl,rfl,rfl⟩
  | left hleaves => simp [Phase.leaves] at hleaves

theorem Linked.of_leaves (h : Linked c st phase codes b) (hleaves : phase.leaves = true) :
    st = .sent ∧ ∀ c', phase = .disconnecting c' → c' = c := by
  cases h with
  | left _ hcaller => exact ⟨rfl,hcaller⟩
  | _ => simp [Phase.leaves] at hleaves

theorem Linked.of_sent (h : Linked c .sent phase codes b) :
    phase = .locking c ∨ (phase = .session c ∧ ∃ rest, codes = .shutdown::rest) ∨
      phase.leaves = true := by
  cases h with
  | sentLocking => exact .inl rfl
  | sentSession => exact .inr (.inl ⟨rfl,_,rfl⟩)
  | left hleaves => exact .inr (.inr hleaves)

/-- More of what the caller sends reaches the node after its SHUTDOWN. -/
theorem Linked.sends (h : Linked c .sent phase codes b) :
    Linked c .sent phase (codes ++ codes') b := by
  cases h with
  | sentLocking => exact .sentLocking
  | sentSession => exact .sentSession
  | left hleaves hcaller => exact .left hleaves hcaller

def Edge (leader : Fin n) (s : Wave n) (c : Caller n) : Prop :=
  Linked c (stage s c) (s.nodes (target leader c)) (s.inbox (target leader c))
    (s.portOpen (target leader c))

/-- The node the wave reaches after `d` others. -/
def place (leader : Fin n) (d : Nat) : Fin n :=
  ⟨(leader.val + d) % n,Nat.mod_lt _ leader.pos⟩

theorem place_succ (leader : Fin n) (d : Nat) : place leader (d + 1) = next (place leader d) := by
  simp [place, next, Nat.add_assoc]

theorem place_surjective (leader i : Fin n) : ∃ d < n, place leader d = i := by
  refine ⟨(i.val + (n - leader.val)) % n,Nat.mod_lt _ leader.pos,?_⟩
  have hsum : leader.val + (i.val + (n - leader.val)) = i.val + n := by omega
  apply Fin.ext
  simp [place, hsum, Nat.mod_eq_of_lt i.isLt]

theorem place_leader (leader : Fin n) (hd : 0 < d) (hle : d ≤ n) :
    place leader d = leader ↔ d = n := by
  have hl := leader.isLt
  rw [Fin.ext_iff]
  simp only [place]
  by_cases hlt : leader.val + d < n
  · rw [Nat.mod_eq_of_lt hlt]
    omega
  · rw [Nat.mod_eq_sub_mod (by omega)]
    by_cases hn : d = n
    · rw [hn, Nat.add_sub_cancel, Nat.mod_eq_of_lt hl]
      simp
    · rw [Nat.mod_eq_of_lt (by omega)]
      omega

theorem next_injective : Function.Injective (next (n := n)) := by
  intro i j h
  have hi := i.isLt
  have hj := j.isLt
  have hij := Fin.ext_iff.mp h
  simp only [next] at hij
  apply Fin.ext
  by_cases hi' : i.val + 1 = n
  all_goals by_cases hj' : j.val + 1 = n
  all_goals simp [hi', hj', Nat.mod_eq_of_lt, Nat.lt_of_le_of_ne hi, Nat.lt_of_le_of_ne hj] at hij
  all_goals omega

theorem target_injective (hc : Calls leader c) (hc' : Calls leader c')
    (h : target leader c = target leader c') : c = c' := by
  cases c with
  | none =>
    cases c' with
    | none => rfl
    | some j => exact absurd h.symm hc'
  | some i =>
    cases c' with
    | none => exact absurd h hc
    | some j => exact congrArg some (next_injective h)

/-- Everybody has somebody to be called by. -/
theorem exists_caller (leader i : Fin n) : ∃ c, Calls leader c ∧ target leader c = i := by
  by_cases hi : i = leader
  · exact ⟨none,trivial,hi.symm⟩
  · obtain ⟨d,hd,rfl⟩ := place_surjective leader i
    cases d with
    | zero => exact absurd (by simp [place, Nat.mod_eq_of_lt leader.isLt]) hi
    | succ d =>
      rw [place_succ] at hi
      exact ⟨some (place leader d),hi,(place_succ leader d).symm⟩

/-- What a step does at one place leaves everybody else's link alone. -/
theorem edges_step {s t : Wave n} (h : ∀ c, Calls leader c → Edge leader s c)
    (hc : Calls leader c) (hedge : Edge leader t c)
    (hstage : ∀ c', c' ≠ c → Calls leader c' → stage t c' = stage s c')
    (hnodes : ∀ j, j ≠ target leader c → t.inbox j = s.inbox j ∧ t.portOpen j = s.portOpen j ∧
      (t.nodes j = s.nodes j ∨ ∃ call call', s.nodes j = .calling call ∧
        t.nodes j = .calling call')) :
    ∀ c', Calls leader c' → Edge leader t c' := by
  intro c' hc'
  by_cases he : c' = c
  · exact he ▸ hedge
  have hold := h c' hc'
  unfold Edge at hold ⊢
  obtain ⟨hinbox,hport,hphase⟩ := hnodes (target leader c') (fun ht => he (target_injective hc' hc ht))
  simp only [hstage c' he hc', hinbox, hport]
  rcases hphase with hsame | ⟨call,call',hs,ht⟩
  · rw [hsame]
    exact hold
  · rw [hs] at hold
    rw [ht]
    generalize stage s c' = stage₀ at hold ⊢
    cases hold with
    | left => exact .left rfl (by simp)

/-- A step moves the wave over one link, and may be the receipt of SHUTDOWN there. -/
inductive Moved (leader : Fin n) (s : Wave n) : Wave n → List (Fin n) → Prop
  | quiet (hleaves : ∀ j, (t.nodes j).leaves = (s.nodes j).leaves) : Moved leader s t []
  | received (c : Caller n) (hc : Calls leader c) (hsent : stage s c = .sent)
      (hwaits : (s.nodes (target leader c)).leaves = false)
      (hleaves : ∀ j, (t.nodes j).leaves = (decide (j = target leader c) || (s.nodes j).leaves)) :
      Moved leader s t [target leader c]

/-- Nobody calls the leader to pass the wave on. -/
def Ends (leader : Fin n) (s : Wave n) : Prop :=
  ∀ i call, next i = leader → s.nodes i = .calling call → call = .finished

structure WaveOk (leader : Fin n) (s : Wave n) : Prop where
  edges : ∀ c, Calls leader c → Edge leader s c
  ends : Ends leader s

theorem WaveOk.calls {s : Wave n} (h : WaveOk leader s) (hcall : call s c = some call₀)
    (hne : call₀ ≠ .finished) : Calls leader c := by
  cases c with
  | none => trivial
  | some i =>
    intro hnext
    simp only [call] at hcall
    split at hcall <;> simp only [Option.some.injEq, reduceCtorEq] at hcall
    rename_i hphase
    exact hne (hcall ▸ h.ends i _ hnext hphase)

theorem stage_of_call {s : Wave n} (h : call s c = some call₀) : stage s c = stageOfCall call₀ := by
  cases c with
  | none => simpa [call, stage] using congrArg stageOfCall (Option.some.inj h)
  | some i =>
    simp only [call] at h
    split at h <;> simp only [Option.some.injEq, reduceCtorEq] at h
    rename_i hphase
    simp [stage, stageOfPhase, hphase, h]

theorem target_ne_caller {leader : Fin n} (hc : Calls leader c) : c ≠ some (target leader c) := by
  rintro he
  obtain ⟨i,rfl⟩ : ∃ i, c = some i := ⟨_,he⟩
  have hself : next i = i := (Option.some.inj he).symm
  have hi := i.isLt
  have hl := leader.isLt
  have hval := Fin.ext_iff.mp hself
  simp only [next] at hval
  by_cases hn : i.val + 1 = n
  · rw [hn, Nat.mod_self] at hval
    exact hc (hself.trans (Fin.ext (by omega)))
  · rw [Nat.mod_eq_of_lt (by omega)] at hval
    omega

section SetCall
variable {s : Wave n}

@[simp] theorem setCall_inbox : (setCall s c call₁).inbox = s.inbox := by
  cases c <;> rfl

@[simp] theorem setCall_portOpen : (setCall s c call₁).portOpen = s.portOpen := by
  cases c <;> rfl

theorem setCall_nodes (h : c ≠ some j) : (setCall s c call₁).nodes j = s.nodes j := by
  cases c with
  | none => rfl
  | some i => simp [setCall, Function.update_of_ne (fun he : j = i => h (he ▸ rfl))]

theorem stage_setCall : stage (setCall s c call₁) c = stageOfCall call₁ := by
  cases c with
  | none => rfl
  | some i => simp [setCall, stage, stageOfPhase]

theorem stage_setCall_other (h : c' ≠ c) : stage (setCall s c call₁) c' = stage s c' := by
  cases c' with
  | none =>
    cases c with
    | none => exact absurd rfl h
    | some i => rfl
  | some j => simp only [stage, setCall_nodes h.symm]

/-- A caller's phase stays a call. -/
theorem setCall_calling (call₁ : PortCall) (h : call s c = some call₀) (j : Fin n) :
    (setCall s c call₁).nodes j = s.nodes j ∨
      ∃ call call', s.nodes j = .calling call ∧ (setCall s c call₁).nodes j = .calling call' := by
  by_cases hj : c = some j
  · subst hj
    simp only [call] at h
    split at h <;> simp only [Option.some.injEq, reduceCtorEq] at h
    rename_i hphase
    exact .inr ⟨_,call₁,hphase,by simp [setCall]⟩
  · exact .inl (setCall_nodes hj)

theorem setCall_leaves (h : call s c = some call₀) (j : Fin n) :
    ((setCall s c call₁).nodes j).leaves = (s.nodes j).leaves := by
  rcases setCall_calling call₁ h j with he | ⟨a,b,ha,hb⟩
  · rw [he]
  · rw [ha, hb]
    rfl

@[simp] theorem stage_setInbox : stage (setInbox s i codes) c = stage s c := rfl

@[simp] theorem setInbox_nodes : (setInbox s i codes).nodes = s.nodes := rfl

@[simp] theorem setInbox_portOpen : (setInbox s i codes).portOpen = s.portOpen := rfl

@[simp] theorem setInbox_self : (setInbox s i codes).inbox i = codes := by
  simp [setInbox]

theorem setInbox_other (h : j ≠ i) : (setInbox s i codes).inbox j = s.inbox j := by
  simp [setInbox, h]

end SetCall

/-- A call goes on; the node called may have something new in its inbox. -/
theorem call_goes_on {s : Wave n} (call₁ : PortCall) (h : WaveOk leader s)
    (hcall : call s c = some call₀)
    (hc : Calls leader c)
    (hlink : Linked c (stageOfCall call₁) (s.nodes (target leader c)) codes
      (s.portOpen (target leader c))) :
    WaveOk leader (setInbox (setCall s c call₁) (target leader c) codes) := by
  constructor
  · refine edges_step h.edges hc ?_ ?_ ?_
    · simpa [Edge, stage_setCall, setCall_nodes (target_ne_caller hc)] using hlink
    · intro c' hc' _
      rw [stage_setInbox, stage_setCall_other hc']
    · intro j hj
      exact ⟨by rw [setInbox_other hj, setCall_inbox],by simp [setInbox],setCall_calling call₁ hcall j⟩
  · intro i call₂ hnext hphase
    have hi : c ≠ some i := by
      rintro rfl
      exact hc hnext
    rw [setInbox_nodes, setCall_nodes hi] at hphase
    exact h.ends i call₂ hnext hphase

/-- A node goes on, at the other end of its caller's link. -/
theorem node_goes_on {s t : Wave n} (h : WaveOk leader s) (hc : Calls leader c)
    (hnodes : t.nodes = Function.update s.nodes (target leader c) phase)
    (hclient : t.client = s.client)
    (hothers : ∀ j, j ≠ target leader c → t.inbox j = s.inbox j ∧ t.portOpen j = s.portOpen j)
    (hstage : next (target leader c) ≠ leader →
      stageOfPhase phase = stageOfPhase (s.nodes (target leader c)))
    (hends : ∀ call, next (target leader c) = leader → phase = .calling call → call = .finished)
    (hlink : Linked c (stage s c) phase (t.inbox (target leader c)) (t.portOpen (target leader c))) :
    WaveOk leader t := by
  have hkept : ∀ c', Calls leader c' → stage t c' = stage s c' := by
    intro c' hc'
    cases c' with
    | none => simp [stage, hclient]
    | some j =>
      simp only [stage, hnodes]
      by_cases hj : j = target leader c
      · subst hj
        simpa using hstage hc'
      · simp [hj]
  constructor
  · refine edges_step h.edges hc ?_ (fun c' _ hc' => hkept c' hc') ?_
    · simpa [Edge, hkept c hc, hnodes] using hlink
    · intro j hj
      exact ⟨(hothers j hj).1,(hothers j hj).2,.inl (by simp [hnodes, hj])⟩
  · intro i call hnext hphase
    rw [hnodes] at hphase
    by_cases hi : i = target leader c
    · subst hi
      exact hends call hnext (by simpa using hphase)
    · exact h.ends i call hnext (by simpa [hi] using hphase)

theorem leaves_update {s t : Wave n} (hnodes : t.nodes = Function.update s.nodes i phase)
    (hleaves : phase.leaves = (s.nodes i).leaves) (j : Fin n) :
    (t.nodes j).leaves = (s.nodes j).leaves := by
  rw [hnodes]
  by_cases hj : j = i
  · subst hj
    simpa using hleaves
  · simp [hj]

theorem start_wave (leader : Fin n) (barrier : Bool) :
    WaveOk leader (wave leader barrier).start := by
  refine ⟨?_,?_⟩
  · intro c hc
    cases c <;> exact .waits
  · intro i call hnext hphase
    simp [wave] at hphase

/-- SHUTDOWN is the first message of every caller. -/
theorem stage_all_sent {c : Caller n} (hall : (messages c)[sent]?.isNone) :
    stageOfCall (.connected sent) = .sent := by
  cases sent with
  | zero => cases c <;> simp [messages] at hall
  | succ sent => rfl

theorem call_setPhase (s : Wave n) (phase : Phase n) (h : c ≠ some i) :
    call (setPhase s i phase) c = call s c := by
  cases c with
  | none => rfl
  | some j => simp [call, setPhase, Function.update_of_ne (fun he : j = i => h (he ▸ rfl))]

theorem stage_setPhase {s : Wave n} (h : stageOfPhase phase = stageOfPhase (s.nodes i)) :
    stage (setPhase s i phase) c = stage s c := by
  cases c with
  | none => rfl
  | some j =>
    simp only [stage, setPhase]
    by_cases hj : j = i
    · subst hj
      simpa using h
    · simp [hj]

/-- The link a call is made over. -/
theorem WaveOk.link_of_call {s : Wave n} (h : WaveOk leader s) (hcall : call s c = some call₀)
    (hne : call₀ ≠ .finished) : Calls leader c ∧ Linked c (stageOfCall call₀)
      (s.nodes (target leader c)) (s.inbox (target leader c)) (s.portOpen (target leader c)) := by
  have hc := h.calls hcall hne
  have hlink := h.edges c hc
  unfold Edge at hlink
  rw [stage_of_call hcall] at hlink
  exact ⟨hc,hlink⟩

theorem WaveOk.connects {s : Wave n} (h : WaveOk leader s) (hcall : call s c = some .connecting)
    (hphase : s.nodes (target leader c) = .accepting) :
    WaveOk leader (setCall (setPhase s (target leader c) (.locking c)) c
      (.connected 0)) := by
  obtain ⟨hc,hlink⟩ := h.link_of_call hcall (by simp)
  obtain ⟨-,hinbox,-⟩ := hlink.of_before
  have hsame : stageOfPhase (.locking c) = stageOfPhase (s.nodes (target leader c)) := by
    rw [hphase]
    rfl
  have hcall' := call_setPhase s (.locking c) (target_ne_caller hc)
  rw [hcall] at hcall'
  constructor
  · refine edges_step h.edges hc ?_ ?_ ?_
    · unfold Edge
      rw [stage_setCall, setCall_nodes (target_ne_caller hc), setCall_inbox]
      simp only [setPhase, Function.update_self, hinbox]
      exact .locking
    · intro c' hc' _
      rw [stage_setCall_other hc', stage_setPhase hsame]
    · intro j hj
      have hj' : (setPhase s (target leader c) (.locking c)).nodes j = s.nodes j := by
        simp [setPhase, hj]
      refine ⟨by simp [setPhase],by simp [setPhase],?_⟩
      have hcalling := setCall_calling (.connected 0) hcall' j
      rwa [hj'] at hcalling
  · intro i call₁ hnext hi
    have hne : c ≠ some i := by
      rintro rfl
      exact hc hnext
    rw [setCall_nodes hne] at hi
    by_cases hit : i = target leader c
    · simp [setPhase, hit] at hi
    · exact h.ends i call₁ hnext (by simpa [setPhase, hit] using hi)

/-- The link a node is called over. -/
theorem WaveOk.link_at {s : Wave n} (h : WaveOk leader s) (hphase : s.nodes i = phase) :
    ∃ c, Calls leader c ∧ target leader c = i ∧
      Linked c (stage s c) phase (s.inbox i) (s.portOpen i) := by
  obtain ⟨c,hc,rfl⟩ := exists_caller leader i
  have hlink := h.edges c hc
  unfold Edge at hlink
  rw [hphase] at hlink
  exact ⟨c,hc,rfl,hlink⟩

/-- A node that has received SHUTDOWN goes on to leave. -/
theorem WaveOk.leaving {s t : Wave n} (h : WaveOk leader s) (hphase : s.nodes i = phase)
    (hleaves : phase.leaves = true) (hleaves' : phase'.leaves = true)
    (hwaits : ∀ c', phase' ≠ .disconnecting c')
    (hnodes : t.nodes = Function.update s.nodes i phase') (hclient : t.client = s.client)
    (hothers : ∀ j, j ≠ i → t.inbox j = s.inbox j ∧ t.portOpen j = s.portOpen j)
    (hstage : next i ≠ leader → stageOfPhase phase' = stageOfPhase phase)
    (hends : ∀ call, next i = leader → phase' = .calling call → call = .finished) :
    WaveOk leader t ∧ Moved leader s t [] := by
  obtain ⟨c,hc,rfl,hlink⟩ := h.link_at hphase
  obtain ⟨hsent,-⟩ := hlink.of_leaves hleaves
  refine ⟨node_goes_on h hc hnodes hclient hothers (fun hne => hphase ▸ hstage hne) hends ?_,
    .quiet (leaves_update hnodes ?_)⟩
  · exact hsent ▸ .left hleaves' (fun c' he => absurd he (hwaits c'))
  · rw [hphase, hleaves, hleaves']

theorem step_wave {s t : Wave n} (h : WaveOk leader s)
    (hs : (wave leader barrier).step s l = some (t,e)) : WaveOk leader t ∧ Moved leader s t e := by
  cases l with
  | connect c =>
    simp only [wave, step, Option.ite_none_right_eq_some, Option.some.injEq, Prod.mk.injEq] at hs
    obtain ⟨⟨hcall,hopen,hphase⟩,rfl,rfl⟩ := hs
    have hc := h.calls hcall (by simp)
    refine ⟨h.connects hcall hphase,.quiet ?_⟩
    intro j
    have hcall' := call_setPhase s (.locking c) (target_ne_caller hc)
    rw [hcall] at hcall'
    rw [setCall_leaves hcall']
    exact leaves_update rfl (by rw [hphase]; rfl) j
  | send c =>
    simp only [wave, step] at hs
    split at hs <;> simp only [Option.map_eq_some_iff, Prod.mk.injEq, reduceCtorEq] at hs
    rename_i sent hcall
    obtain ⟨code,hcode,rfl,rfl⟩ := hs
    obtain ⟨hc,hlink⟩ := h.link_of_call hcall (by simp)
    refine ⟨call_goes_on (.connected (sent + 1)) h hcall hc ?_,.quiet (setCall_leaves hcall)⟩
    cases sent with
    | zero =>
      obtain ⟨hphase,hinbox⟩ := hlink.of_connected
      have hshutdown : code = .shutdown := by
        cases c <;> simpa [messages, eq_comm] using hcode
      rw [hinbox, hshutdown]
      rcases hphase with hphase | hphase
      · exact hphase ▸ .sentLocking
      · exact hphase ▸ .sentSession
    | succ sent => exact hlink.sends
  | hangUp c =>
    simp only [wave, step] at hs
    split at hs <;> simp only [Option.ite_none_right_eq_some, Option.some.injEq, Prod.mk.injEq,
      reduceCtorEq] at hs
    rename_i sent hcall
    obtain ⟨⟨hall,-⟩,rfl,rfl⟩ := hs
    obtain ⟨hc,hlink⟩ := h.link_of_call hcall (by simp)
    rw [stage_all_sent hall] at hlink
    have hok := call_goes_on .finished h hcall hc hlink
    have hsame : setInbox (setCall s c .finished) (target leader c) (s.inbox (target leader c)) =
        setCall s c .finished := by
      cases c <;> simp [setInbox, setCall]
    exact ⟨hsame ▸ hok,.quiet (setCall_leaves hcall)⟩
  | disallowRecovery i =>
    simp only [wave, step] at hs
    split at hs <;> simp only [Option.some.injEq, Prod.mk.injEq, reduceCtorEq] at hs
    rename_i c' hphase
    obtain ⟨rfl,rfl⟩ := hs
    obtain ⟨c,hc,rfl,hlink⟩ := h.link_at hphase
    refine ⟨node_goes_on h hc rfl rfl (fun _ _ => ⟨rfl,rfl⟩) ?_ ?_ hlink.of_locking.2,
      .quiet (leaves_update rfl ?_)⟩
    · simp [hphase, stageOfPhase]
    · simp
    · simp [hphase, Phase.leaves]
  | receive i =>
    simp only [wave, step] at hs
    split at hs <;> try contradiction
    rename_i c' hphase
    obtain ⟨c,hc,rfl,hlink⟩ := h.link_at hphase
    cases hinbox : s.inbox (target leader c) with
    | nil => simp [receive, hinbox] at hs
    | cons code rest =>
      rw [hinbox] at hlink
      obtain ⟨rfl,hsent,rfl⟩ := hlink.of_session
      simp only [receive, hinbox, Option.some.injEq, Prod.mk.injEq] at hs
      obtain ⟨rfl,rfl⟩ := hs
      refine ⟨node_goes_on h hc rfl rfl (fun j hj => ⟨setInbox_other hj,rfl⟩) ?_ ?_ ?_,
        .received c' hc hsent ?_ ?_⟩
      · simp [hphase, stageOfPhase]
      · simp
      · exact hsent ▸ .left rfl (by simp)
      · simp [hphase, Phase.leaves]
      · intro j
        by_cases hj : j = target leader c'
        · simp [setPhase, hj, Phase.leaves]
        · simp [setPhase, hj]
  | disconnect i =>
    simp only [wave, step] at hs
    split at hs <;> simp only [Option.ite_none_right_eq_some, Option.some.injEq, Prod.mk.injEq,
      reduceCtorEq] at hs
    rename_i c' hphase
    obtain ⟨-,rfl,rfl⟩ := hs
    exact h.leaving hphase rfl rfl (by simp) rfl rfl (fun _ _ => ⟨rfl,rfl⟩) (fun _ => rfl) (by simp)
  | closePort i =>
    simp only [wave, step, Option.ite_none_right_eq_some, Option.some.injEq, Prod.mk.injEq] at hs
    obtain ⟨hphase,rfl,rfl⟩ := hs
    refine h.leaving hphase rfl rfl (by simp) rfl rfl (fun j hj => ⟨rfl,?_⟩) (fun _ => rfl) (by simp)
    simp [closePort, setPhase, hj]
  | testLeader i =>
    simp only [wave, step, Option.ite_none_right_eq_some, Option.some.injEq, Prod.mk.injEq] at hs
    obtain ⟨hphase,rfl,rfl⟩ := hs
    refine h.leaving hphase rfl rfl (by simp) rfl rfl (fun _ _ => ⟨rfl,rfl⟩) ?_ ?_
    · intro hne
      simp [stageOfPhase, stageOfCall, hne.symm]
    · intro call hnext
      simp [hnext, eq_comm]

/-- `r` nodes have received SHUTDOWN: the first ones from the leader on. -/
structure WaveAt (leader : Fin n) (s : Wave n) (es : List (Fin n)) (r : Nat) : Prop where
  order : es = (List.range r).map (place leader)
  within : r ≤ n
  front : ∀ d < n, (s.nodes (place leader d)).leaves = true ↔ d < r

theorem place_injective (leader : Fin n) (hd : d < n) (hd' : d' < n)
    (h : place leader d = place leader d') : d = d' := by
  have hmod : leader.val + d ≡ leader.val + d' [MOD n] := Fin.ext_iff.mp h
  have hdd := Nat.ModEq.add_left_cancel' _ hmod
  rwa [Nat.ModEq, Nat.mod_eq_of_lt hd, Nat.mod_eq_of_lt hd'] at hdd

theorem place_zero (leader : Fin n) : place leader 0 = leader := by
  simp [place, Nat.mod_eq_of_lt leader.isLt]

theorem leaves_of_sent {s : Wave n} (h : stage s (some i) = .sent) :
    (s.nodes i).leaves = true := by
  simp only [stage] at h
  cases hphase : s.nodes i <;> simp [stageOfPhase, hphase] at h
  rfl

/-- Whoever is next to receive SHUTDOWN stands at the front of the wave. -/
theorem WaveAt.reaches {s : Wave n} (h : WaveAt leader s es r) (hc : Calls leader c)
    (hsent : stage s c = .sent) (hwaits : (s.nodes (target leader c)).leaves = false) :
    r < n ∧ place leader r = target leader c := by
  obtain ⟨d,hd,hplace⟩ := place_surjective leader (target leader c)
  have hr : r ≤ d := by
    have hfront := h.front d hd
    rw [hplace, hwaits] at hfront
    simpa using hfront
  cases c with
  | none =>
    have hzero : d = 0 :=
      place_injective leader hd leader.pos (hplace.trans (place_zero leader).symm)
    obtain rfl : r = d := by omega
    exact ⟨hd,hplace⟩
  | some i =>
    cases d with
    | zero => exact absurd (hplace.symm.trans (place_zero leader)) hc
    | succ d =>
      rw [place_succ] at hplace
      have hi : place leader d = i := next_injective hplace
      have hlt := (h.front d (by omega)).mp (hi ▸ leaves_of_sent hsent)
      obtain rfl : r = d + 1 := by omega
      exact ⟨hd,(place_succ leader d).trans hplace⟩

theorem WaveAt.step {s t : Wave n} (h : WaveAt leader s es r) (hm : Moved leader s t e) :
    ∃ r', WaveAt leader t (es ++ e) r' := by
  cases hm with
  | quiet hleaves =>
    refine ⟨r,by simpa using h.order,h.within,?_⟩
    intro d hd
    rw [hleaves]
    exact h.front d hd
  | received c hc hsent hwaits hleaves =>
    obtain ⟨hr,hplace⟩ := h.reaches hc hsent hwaits
    refine ⟨r + 1,?_,hr,?_⟩
    · rw [h.order, List.range_succ, List.map_append, ← hplace]
      rfl
    · intro d hd
      rw [hleaves, Bool.or_eq_true, decide_eq_true_eq, h.front d hd]
      constructor
      · rintro (he | hlt)
        · have hdr := place_injective leader hd hr (he.trans hplace.symm)
          omega
        · omega
      · intro hlt
        rcases Nat.lt_succ_iff_lt_or_eq.mp hlt with hlt | rfl
        · exact .inr hlt
        · exact .inl hplace

theorem reach_wave {leader : Fin n} (hr : (wave leader barrier).Reach Machine.free s es) :
    WaveOk leader s ∧ ∃ r, WaveAt leader s es r := by
  induction hr with
  | start =>
    refine ⟨start_wave leader barrier,0,rfl,Nat.zero_le n,?_⟩
    simp [wave, Phase.leaves]
  | step hr hok hs ih =>
    obtain ⟨h,r,hat⟩ := ih
    obtain ⟨hwave,hmoved⟩ := step_wave h hs
    exact ⟨hwave,hat.step hmoved⟩

section Over
variable {leader : Fin n} {s : Wave n}

/-- Where nothing can move any more, whoever was sent SHUTDOWN has received it. -/
theorem WaveOk.received (h : WaveOk leader s)
    (hstop : ∀ l, (wave leader barrier).step s l = none) (hc : Calls leader c)
    (hsent : stage s c = .sent) : (s.nodes (target leader c)).leaves = true := by
  have hlink := h.edges c hc
  unfold Edge at hlink
  rw [hsent] at hlink
  rcases hlink.of_sent with hphase | ⟨hphase,rest,hinbox⟩ | hleaves
  · have hlock := hstop (.disallowRecovery (target leader c))
    simp [wave, step, hphase] at hlock
  · have hreceive := hstop (.receive (target leader c))
    simp [wave, step, receive, hphase, hinbox] at hreceive
  · exact hleaves

theorem WaveOk.call_over (h : WaveOk leader s)
    (hstop : ∀ l, (wave leader barrier).step s l = none) (hcall : call s c = some call₀) :
    call₀ = .finished := by
  by_contra hne
  have hc := h.calls hcall hne
  have hstage := stage_of_call hcall
  cases call₀ with
  | connecting =>
    have hlink := h.edges c hc
    unfold Edge at hlink
    rw [hstage] at hlink
    obtain ⟨hphase,-,hopen⟩ := hlink.of_before
    have hconnect := hstop (.connect c)
    simp [wave, step, hcall, hphase, hopen] at hconnect
  | connected sent =>
    cases hnext : (messages c)[sent]? with
    | some code =>
      have hsend := hstop (.send c)
      simp [wave, step, hcall, hnext] at hsend
    | none =>
      rw [stage_all_sent (c := c) (by rw [hnext]; rfl)] at hstage
      have hleaves := h.received hstop hc hstage
      have hhang := hstop (.hangUp c)
      simp [wave, step, hcall, hnext, hleaves] at hhang
  | finished => exact hne rfl

/-- The node that was called comes to pass the wave on. -/
theorem WaveOk.passes (h : WaveOk leader s)
    (hstop : ∀ l, (wave leader barrier).step s l = none) (hc : Calls leader c)
    (hcall : call s c = some call₀) : ∃ call', s.nodes (target leader c) = .calling call' := by
  obtain rfl := h.call_over hstop hcall
  have hleaves := h.received hstop hc (stage_of_call hcall)
  have hlink := h.edges c hc
  unfold Edge at hlink
  have hheld := (hlink.of_leaves hleaves).2
  cases hphase : s.nodes (target leader c) with
  | disconnecting c' =>
    obtain rfl := hheld c' hphase
    have hdisconnect := hstop (.disconnect (target leader c'))
    simp [wave, step, hphase, callerLeaves, hcall] at hdisconnect
  | closingPort =>
    have hclose := hstop (.closePort (target leader c))
    simp [wave, step, hphase] at hclose
  | testingLeader =>
    have htest := hstop (.testLeader (target leader c))
    simp [wave, step, hphase] at htest
  | calling call' => exact ⟨call',rfl⟩
  | _ => simp [hphase, Phase.leaves] at hleaves

theorem WaveOk.everybody (h : WaveOk leader s)
    (hstop : ∀ l, (wave leader barrier).step s l = none) (hd : d < n) :
    ∃ call', s.nodes (place leader d) = .calling call' := by
  induction d with
  | zero =>
    rw [place_zero]
    exact h.passes hstop (c := none) trivial rfl
  | succ d ih =>
    obtain ⟨call',hcall⟩ := ih (by omega)
    have hc : Calls leader (some (place leader d)) := by
      intro hnext
      rw [← place_succ, place_leader leader (by omega) (by omega)] at hnext
      omega
    rw [place_succ]
    have hcalling : call s (some (place leader d)) = some call' := by simp [call, hcall]
    exact h.passes hstop hc hcalling

end Over

/-- The shutdown wave runs from the leader around the ring, reaches nobody twice and calls
no closed port. Where it cannot go on, it has reached everybody. -/
theorem shutdown_reaches_everybody (leader : Fin n) (barrier : Bool)
    (hr : (wave leader barrier).Reach Machine.free s es) :
    (∃ r ≤ n, es = (List.range r).map (place leader)) ∧
    (∀ c, call s c = some .connecting → s.portOpen (target leader c) = true) ∧
    ((∀ l, (wave leader barrier).step s l = none) →
      es = (List.range n).map (place leader) ∧ ∀ i, es.count i = 1) := by
  obtain ⟨h,r,hat⟩ := reach_wave hr
  refine ⟨⟨r,hat.within,hat.order⟩,?_,?_⟩
  · intro c hcall
    have hlink := h.edges c (h.calls hcall (by simp))
    unfold Edge at hlink
    rw [stage_of_call hcall] at hlink
    exact hlink.of_before.2.2
  · intro hstop
    have hall : r = n := by
      by_contra hne
      have hlt : r < n := Nat.lt_of_le_of_ne hat.within hne
      obtain ⟨call',hcall⟩ := h.everybody hstop hlt
      have hfront := (hat.front r hlt).mp (by rw [hcall]; rfl)
      omega
    have horder := hall ▸ hat.order
    refine ⟨horder,?_⟩
    intro i
    obtain ⟨d,hd,hplace⟩ := place_surjective leader i
    rw [horder]
    apply List.count_eq_one_of_mem
    · refine List.Nodup.map_on ?_ List.nodup_range
      intro x hx y hy he
      exact place_injective leader (List.mem_range.mp hx) (List.mem_range.mp hy) he
    · exact List.mem_map.mpr ⟨d,List.mem_range.mpr hd,hplace⟩

/-- The whole wave over three nodes, from node 1 on. -/
def allStop : List (Shutdown.Move 3) :=
  [.connect none,.send none,.send none] ++ Shutdown.Move.receives 1 ++
  [.connect (some 1),.send (some 1)] ++ Shutdown.Move.receives 2 ++
  [.connect (some 2),.hangUp none,.send (some 2),.hangUp (some 1)] ++ Shutdown.Move.receives 0 ++
  [.hangUp (some 2)]

def callers (n : Nat) : List (Caller n) := none :: (List.finRange n).map some

def everyMove (n : Nat) : List (Shutdown.Move n) :=
  (callers n).flatMap (fun c => [.connect c,.send c,.hangUp c]) ++
  (List.finRange n).flatMap (fun i =>
    [.disallowRecovery i,.receive i,.disconnect i,.closePort i,.testLeader i])

theorem mem_callers (c : Caller n) : c ∈ callers n := by
  cases c <;> simp [callers]

theorem mem_everyMove (l : Shutdown.Move n) : l ∈ everyMove n := by
  cases l with
  | connect c | send c | hangUp c =>
    exact List.mem_append_left _ (List.mem_flatMap.mpr ⟨c,mem_callers c,by simp⟩)
  | disallowRecovery i | receive i | disconnect i | closePort i | testLeader i =>
    exact List.mem_append_right _ (List.mem_flatMap.mpr ⟨i,List.mem_finRange i,by simp⟩)

theorem allStop_end : ((wave (1 : Fin 3) true).follow (fun _ _ _ => true) allStop
    (wave (1 : Fin 3) true).start []).map (fun r =>
      (everyMove 3).all (fun l => ((wave (1 : Fin 3) true).step r.1 l).isNone)) = some true := by
  decide

theorem shutdown_reaches_everybody_allStop : ∃ s es,
    (wave (1 : Fin 3) true).Reach Machine.free s es ∧
    (∀ l, (wave (1 : Fin 3) true).step s l = none) ∧
    es = (List.range 3).map (place (1 : Fin 3)) ∧ ∀ i, es.count i = 1 := by
  obtain ⟨s,es,hr,h⟩ := Machine.exists_reach (fun _ _ _ _ => trivial) allStop_end
  have hstop : ∀ l, (wave (1 : Fin 3) true).step s l = none := by
    intro l
    exact Option.isNone_iff_eq_none.mp (List.all_eq_true.mp h l (mem_everyMove l))
  obtain ⟨-,-,hall⟩ := shutdown_reaches_everybody 1 true hr
  exact ⟨s,es,hr,hstop,hall hstop⟩

end Algorep.Proofs
