import Algorep.Proofs.ElectionSteps

namespace Algorep.Proofs
open Kit Program Program.Server

/-! A failure thread and a handler write the two tables for a peer one after the other, in
opposite orders. -/

def writesTable : Op n → Bool
  | .setIsAlive _ _ | .setNodeStatus _ _ _ => true
  | _ => false

/-- Sections that write to both tables or to none. -/
inductive Paired : List (Op n) → Prop
  | nil : Paired []
  | fails (j : Fin n) (h : Paired rest) :
      Paired (.setIsAlive j false::.setNodeStatus j false none::rest)
  | enables (j : Fin n) (answers : Option Nat) (h : Paired rest) :
      Paired (.setNodeStatus j true answers::.setIsAlive j true::rest)
  | other (hop : writesTable op = false) (h : Paired rest) : Paired (op::rest)

/-- Where a thread is with its writes. -/
inductive Writing : List (Op n) → Prop
  | outside (h : Paired ops) : Writing ops
  | failing (j : Fin n) (h : Paired rest) : Writing (.setNodeStatus j false none::rest)
  | enabling (j : Fin n) (h : Paired rest) : Writing (.setIsAlive j true::rest)

/-- A failure thread is between its two writes for the peer. -/
def midFailure (node : Server.Node n) (j : Fin n) : Bool :=
  (threadsOf node).any (fun t => (node.threads t).head? == some (.setNodeStatus j false none))

/-- `enableComm` is between its two writes for the peer. -/
def midEnabling (node : Server.Node n) (j : Fin n) : Bool :=
  (threadsOf node).any (fun t => (node.threads t).head? == some (.setIsAlive j true))

/-- Neither of the two starts to write for a peer while the other is between its writes. -/
def writesApart (s : Server.Cluster n) (l : Server.Move n) : Bool :=
  match sectionOf s l with
  | some (.setIsAlive j false) => !midEnabling (s.nodes (mover l)) j
  | some (.setNodeStatus j true _) => !midFailure (s.nodes (mover l)) j
  | _ => true

theorem paired_append {ops rest : List (Op n)} (h : Paired ops) (h' : Paired rest) :
    Paired (ops ++ rest) := by
  induction h with
  | nil => exact h'
  | fails j _ ih => exact .fails j ih
  | enables j answers _ ih => exact .enables j answers ih
  | other hop _ ih => exact .other hop ih

theorem paired_of_quiet {ops : List (Op n)} (h : ∀ op ∈ ops, writesTable op = false) :
    Paired ops := by
  induction ops with
  | nil => exact .nil
  | cons op ops ih =>
    refine .other (h op List.mem_cons_self) (ih ?_)
    exact fun op' hop' => h op' (List.mem_cons_of_mem _ hop')

theorem enableComm_paired (j : Fin n) (answers : Option Nat) : Paired (enableComm j answers) :=
  .enables j answers .nil

theorem updateChecked_paired (rank : Fin n) (node : Server.Node n) (src : Fin n) (b : Bool)
    (k : Nat) : Paired (updateChecked rank node src b k) := by
  unfold updateChecked
  apply paired_append
  · split
    · apply paired_append
      · apply paired_of_quiet
        intro op hop
        obtain ⟨j,-,rfl⟩ := List.mem_map.mp hop
        rfl
      · exact enableComm_paired src (some k)
    · exact .nil
  · exact .other rfl .nil

/-- The sections that another one leaves write to both tables or to none. -/
theorem exec_paired {node : Server.Node n} (h : exec rank node timedOut now op = some (ops,out)) :
    Paired ops := by
  have hcont := exec_continues h
  cases op with
  | updateChecked src b k =>
    simp only [exec, Option.some.injEq, Prod.mk.injEq] at h
    exact h.1 ▸ updateChecked_paired rank node src b k
  | handleMessage src m =>
    cases m with
    | recovered j =>
      simp only [exec, handleMessage, Option.some.injEq, Prod.mk.injEq] at h
      rw [← h.1]
      split
      · exact .nil
      · exact enableComm_paired j none
    | election =>
      apply paired_of_quiet
      intro x hx
      cases hcont x hx with
      | answered _ hx => rcases mem_broadcastElection hx with rfl | ⟨j,rfl⟩ <;> rfl
    | state =>
      apply paired_of_quiet
      intro x hx
      cases hcont x hx
      rfl
    | stateUpdated =>
      apply paired_of_quiet
      intro x hx
      cases hcont x hx
      rfl
    | _ =>
      apply paired_of_quiet
      intro x hx
      cases hcont x hx
  | broadcastIfNoLeader =>
    apply paired_of_quiet
    intro x hx
    cases hcont x hx with
    | again _ hx => rcases mem_broadcastElection hx with rfl | ⟨j,rfl⟩ <;> rfl
  | declareIfNoLeader =>
    apply paired_of_quiet
    intro x hx
    cases hcont x hx with
    | declared _ hx =>
      rcases List.mem_append.mp hx with hx | hx
      · rcases mem_declareVictory hx with ⟨j,rfl⟩ | rfl <;> rfl
      · rw [List.mem_singleton.mp hx]
        rfl
  | startRecovery =>
    apply paired_of_quiet
    intro x hx
    cases hcont x hx with
    | recovering _ _ _ hx => rcases mem_pausedRecovery hx with rfl | rfl | rfl | rfl <;> rfl
  | readState =>
    apply paired_of_quiet
    intro x hx
    cases hcont x hx
    rfl
  | _ =>
    apply paired_of_quiet
    intro x hx
    cases hcont x hx

theorem newThread_paired {node : Server.Node n} (hn : newThread rank node a = some ops) :
    Paired ops := by
  rcases newThread_cases hn with rfl | rfl | ⟨j,-,rfl⟩ | ⟨j,-,rfl⟩
  · apply paired_of_quiet
    simp [aliveWait, writesTable]
  · apply paired_of_quiet
    intro x hx
    cases triggerElection_opening hx with
    | mark | cut => simp [triggerElection, broadcastElection] at hx
    | _ => rfl
  · exact .fails j (.other rfl .nil)
  · exact .other rfl .nil

/-- A thread outside its writes is about to begin them or does something else. -/
theorem Paired.head {ops : List (Op n)} (h : Paired ops) :
    ops.head? ≠ some (.setNodeStatus j false none) ∧ ops.head? ≠ some (.setIsAlive j true) := by
  cases h with
  | nil | fails | enables => simp
  | other hop h =>
    constructor
    · rintro ⟨rfl⟩
      simp [writesTable] at hop
    · rintro ⟨rfl⟩
      simp [writesTable] at hop

/-- What running a section does to a thread's place. -/
inductive Advances : Op n → List (Op n) → Prop
  | fails (j : Fin n) (h : Paired rest) :
      Advances (.setIsAlive j false) (.setNodeStatus j false none::rest)
  | failed (j : Fin n) (h : Paired after) : Advances (.setNodeStatus j false none) after
  | enables (j : Fin n) (answers : Option Nat) (h : Paired rest) :
      Advances (.setNodeStatus j true answers) (.setIsAlive j true::rest)
  | enabled (j : Fin n) (h : Paired after) : Advances (.setIsAlive j true) after
  | other (hop : writesTable op = false) (h : Paired after) : Advances op after

theorem advances_of_exec {node : Server.Node n} {op : Op n} {rest : List (Op n)}
    (h : Writing (op::rest)) (he : exec rank node timedOut now op = some (ops,out)) :
    Advances op (ops ++ rest) := by
  have hops := exec_paired he
  cases h with
  | outside h =>
    cases h with
    | fails j h =>
      simp only [exec, Option.some.injEq, Prod.mk.injEq] at he
      exact he.1 ▸ .fails j h
    | enables j answers h =>
      simp only [exec, Option.some.injEq, Prod.mk.injEq] at he
      exact he.1 ▸ .enables j answers h
    | other hop h => exact .other hop (paired_append hops h)
  | failing j h => exact .failed j (paired_append hops h)
  | enabling j h => exact .enabled j (paired_append hops h)

theorem Advances.writing {op : Op n} {after : List (Op n)} (h : Advances op after) :
    Writing after := by
  cases h with
  | fails j h => exact .failing j h
  | enables j answers h => exact .enabling j h
  | failed j h | enabled j h | other hop h => exact .outside h

/-- The thread is a failure thread between its writes for the peer. -/
def Fails (node : Server.Node n) (t : ThreadId) (j : Fin n) : Prop :=
  (node.threads t).head? = some (.setNodeStatus j false none)

/-- The thread is in `enableComm`, between its writes for the peer. -/
def Enables (node : Server.Node n) (t : ThreadId) (j : Fin n) : Prop :=
  (node.threads t).head? = some (.setIsAlive j true)

/-- The two entries for a peer, and who is writing them. -/
structure EntryHeld (node : Server.Node n) (j : Fin n) : Prop where
  apart : ∀ t t', Fails node t j → ¬ Enables node t' j
  failing : ∀ t, Fails node t j → node.isAlive j = false
  enabling : ∀ t, Enables node t j → node.processIsAlive j = true
  agree : (∀ t, ¬ Fails node t j) → (∀ t, ¬ Enables node t j) →
    node.isAlive j = node.processIsAlive j

structure TablesHeld (node : Server.Node n) : Prop where
  unborn : Unborn node
  writing : ∀ t, Writing (node.threads t)
  entry : ∀ j, EntryHeld node j

/-- Threads that keep to the same side of their writes for a peer. -/
def SamePlace (node x : Server.Node n) (t : ThreadId) (j : Fin n) : Prop :=
  (Fails x t j ↔ Fails node t j) ∧ (Enables x t j ↔ Enables node t j)

theorem EntryHeld.same {node x : Server.Node n} (h : EntryHeld node j)
    (hplace : ∀ t, SamePlace node x t j) (halive : x.isAlive j = node.isAlive j)
    (hstatus : x.processIsAlive j = node.processIsAlive j) : EntryHeld x j := by
  constructor
  · intro t t' hf he
    exact h.apart t t' ((hplace t).1.mp hf) ((hplace t').2.mp he)
  · intro t hf
    rw [halive]
    exact h.failing t ((hplace t).1.mp hf)
  · intro t he
    rw [hstatus]
    exact h.enabling t ((hplace t).2.mp he)
  · intro hf he
    rw [halive, hstatus]
    apply h.agree
    · exact fun t hft => hf t ((hplace t).1.mpr hft)
    · exact fun t het => he t ((hplace t).2.mpr het)

theorem samePlace_of_paired {node x : Server.Node n} (h : Paired (node.threads t))
    (h' : Paired (x.threads t)) (j : Fin n) : SamePlace node x t j :=
  ⟨iff_of_false h'.head.1 h.head.1,iff_of_false h'.head.2 h.head.2⟩

/-- A thread that does not run keeps its place, and a new one has not begun to write. -/
theorem Turned.samePlace {node : Server.Node n} (h : Turned rank node a out) (hu : Unborn node)
    (ha : ∀ timedOut now, a ≠ .run t timedOut now) (j : Fin n) : SamePlace node out.state t j := by
  have hthread := h.thread t
  generalize hx : out.state.threads t = ops at hthread
  cases hthread with
  | same =>
    unfold SamePlace Fails Enables
    rw [hx]
    exact ⟨Iff.rfl,Iff.rfl⟩
  | next timedOut now op rest ops out' ha' => exact absurd ha' (ha timedOut now)
  | first ops ha' ht hn =>
    apply samePlace_of_paired
    · rw [ht, hu _ (Nat.le_refl _)]
      exact .nil
    · rw [hx]
      exact newThread_paired hn

/-- What the section of an action does: nothing, or a step of one thread. -/
inductive Wrote (node : Server.Node n) (a : Server.Action n) (x : Server.Node n) : Prop
  | nothing (hop : sectionAt node a = none) (hplace : ∀ t j, SamePlace node x t j) : Wrote node a x
  | advanced (t : ThreadId) (op : Op n) (hop : sectionAt node a = some op)
      (ht : (node.threads t).head? = some op) (h : Advances op (x.threads t))
      (hplace : ∀ t', t' ≠ t → ∀ j, SamePlace node x t' j) : Wrote node a x

theorem Turned.wrote {node : Server.Node n} (h : Turned rank node a out) (hs : TablesHeld node) :
    Wrote node a out.state := by
  cases a with
  | run t timedOut now =>
    have hthread := h.thread t
    generalize hx : out.state.threads t = ops at hthread
    cases hthread with
    | same ha => exact absurd rfl (ha timedOut now)
    | first ops ha => exact absurd rfl (ha timedOut now)
    | next timedOut' now' op rest ops out' ha ht he =>
      refine .advanced t op (by simp [sectionAt, ht]) (by simp [ht]) ?_ ?_
      · rw [hx]
        exact advances_of_exec (ht ▸ hs.writing t) he
      · intro t' ht' j
        refine h.samePlace hs.unborn ?_ j
        rintro b k he'
        cases he'
        exact ht' rfl
  | _ => exact .nothing rfl (fun t j => h.samePlace hs.unborn (by simp) j)

theorem midEnabling_eq_false {node : Server.Node n} (hu : Unborn node) :
    midEnabling node j = false ↔ ∀ t, ¬ Enables node t j := by
  unfold midEnabling Enables
  simp only [List.any_eq_false, beq_iff_eq]
  constructor
  · intro h t he
    exact h t (mem_threadsOf hu (List.mem_of_mem_head? he)) he
  · exact fun h t _ => h t

theorem midFailure_eq_false {node : Server.Node n} (hu : Unborn node) :
    midFailure node j = false ↔ ∀ t, ¬ Fails node t j := by
  unfold midFailure Fails
  simp only [List.any_eq_false, beq_iff_eq]
  constructor
  · intro h t he
    exact h t (mem_threadsOf hu (List.mem_of_mem_head? he)) he
  · exact fun h t _ => h t

/-- What a section does to the entries for one peer, and to its thread's place. -/
structure EntryStep (node x : Server.Node n) (t : ThreadId) (op : Op n) (j : Fin n) : Prop where
  places : ∀ t', t' ≠ t → SamePlace node x t' j
  head : (node.threads t).head? = some op
  alive : x.isAlive j = isAliveAfter node op j
  status : x.processIsAlive j = statusAfter node op j

section EntryStep
variable {node x : Server.Node n} {t : ThreadId}

/-- The first write of a failure, while nobody enables the peer. -/
theorem EntryStep.fails (h : EntryStep node x t (.setIsAlive j false) j)
    (hclear : ∀ t, ¬ Enables node t j)
    (hx : x.threads t = .setNodeStatus j false none::rest) : EntryHeld x j := by
  have hnone : ∀ t', ¬ Enables x t' j := by
    intro t' het
    by_cases ht : t' = t
    · subst ht
      simp [Enables, hx] at het
    · exact hclear t' ((h.places t' ht).2.mp het)
  have halive : x.isAlive j = false := by
    rw [h.alive]
    simp [isAliveAfter]
  refine ⟨fun _ t' _ => hnone t',fun _ _ => halive,?_,?_⟩
  · exact fun t' het => absurd het (hnone t')
  · intro hf
    exact absurd (by simp [Fails, hx]) (hf t)

/-- The second write of a failure. -/
theorem EntryStep.failed (h : EntryStep node x t (.setNodeStatus j false none) j)
    (he : EntryHeld node j) (hx : Paired (x.threads t)) : EntryHeld x j := by
  have hnone : ∀ t', ¬ Enables x t' j := by
    intro t' het
    by_cases ht : t' = t
    · subst ht
      exact hx.head.2 het
    · exact he.apart t t' h.head ((h.places t' ht).2.mp het)
  have halive : x.isAlive j = false := by
    rw [h.alive]
    exact he.failing t h.head
  refine ⟨fun _ t' _ => hnone t',fun _ _ => halive,?_,?_⟩
  · exact fun t' het => absurd het (hnone t')
  · intro _ _
    rw [halive, h.status]
    simp [statusAfter]

/-- The first write of `enableComm`, while no failure of the peer is being written. -/
theorem EntryStep.enables (h : EntryStep node x t (.setNodeStatus j true answers) j)
    (hclear : ∀ t, ¬ Fails node t j)
    (hx : x.threads t = .setIsAlive j true::rest) : EntryHeld x j := by
  have hnone : ∀ t', ¬ Fails x t' j := by
    intro t' hft
    by_cases ht : t' = t
    · subst ht
      simp [Fails, hx] at hft
    · exact hclear t' ((h.places t' ht).1.mp hft)
  have hstatus : x.processIsAlive j = true := by
    rw [h.status]
    simp [statusAfter]
  refine ⟨fun t' _ hft => absurd hft (hnone t'),?_,fun _ _ => hstatus,?_⟩
  · exact fun t' hft => absurd hft (hnone t')
  · intro _ hen
    exact absurd (by simp [Enables, hx]) (hen t)

/-- The second write of `enableComm`. -/
theorem EntryStep.enabled (h : EntryStep node x t (.setIsAlive j true) j)
    (he : EntryHeld node j) (hx : Paired (x.threads t)) : EntryHeld x j := by
  have hnone : ∀ t', ¬ Fails x t' j := by
    intro t' hft
    by_cases ht : t' = t
    · subst ht
      exact hx.head.1 hft
    · exact he.apart t' t ((h.places t' ht).1.mp hft) h.head
  have hstatus : x.processIsAlive j = true := by
    rw [h.status]
    exact he.enabling t h.head
  refine ⟨fun t' _ hft => absurd hft (hnone t'),?_,fun _ _ => hstatus,?_⟩
  · exact fun t' hft => absurd hft (hnone t')
  · intro _ _
    rw [hstatus, h.alive]
    simp [isAliveAfter]

/-- A section that writes nothing for the peer, before and after which its thread is not
between two writes for the peer. -/
theorem EntryStep.other (h : EntryStep node x t op j) (he : EntryHeld node j)
    (hbefore : ¬ Fails node t j ∧ ¬ Enables node t j) (hafter : ¬ Fails x t j ∧ ¬ Enables x t j)
    (halive : isAliveAfter node op j = node.isAlive j)
    (hstatus : statusAfter node op j = node.processIsAlive j) : EntryHeld x j := by
  refine he.same ?_ (h.alive.trans halive) (h.status.trans hstatus)
  intro t'
  by_cases ht : t' = t
  · subst ht
    exact ⟨iff_of_false hafter.1 hbefore.1,iff_of_false hafter.2 hbefore.2⟩
  · exact h.places t' ht

end EntryStep

/-- What `writesApart` asks of the section a node runs. -/
def Apart (node : Server.Node n) : Op n → Prop
  | .setIsAlive j false => ∀ t, ¬ Enables node t j
  | .setNodeStatus j true _ => ∀ t, ¬ Fails node t j
  | _ => True

theorem entryHeld_of_advances {node x : Server.Node n} {op : Op n}
    (h : EntryStep node x t op j) (he : EntryHeld node j) (hadv : Advances op (x.threads t))
    (hapart : Apart node op) : EntryHeld x j := by
  have hhead := h.head
  generalize hx : x.threads t = after at hadv
  have hplace : ∀ j', op ≠ .setNodeStatus j' false none → op ≠ .setIsAlive j' true →
      ¬ Fails node t j' ∧ ¬ Enables node t j' := by
    intro j' hne hne'
    unfold Fails Enables
    rw [hhead]
    exact ⟨by simpa using hne,by simpa using hne'⟩
  have hpaired : Paired after → ¬ Fails x t j ∧ ¬ Enables x t j := by
    intro hp
    rw [← hx] at hp
    exact hp.head
  cases hadv with
  | fails k hp =>
    by_cases hk : j = k
    · subst hk
      exact h.fails hapart hx
    · refine h.other he (hplace j (by simp) (by simp)) ?_ (by simp [isAliveAfter, hk]) rfl
      simp [Fails, Enables, hx, Ne.symm hk]
  | failed k hp =>
    by_cases hk : j = k
    · subst hk
      exact h.failed he (hx ▸ hp)
    · exact h.other he (hplace j (by simp [Ne.symm hk]) (by simp)) (hpaired hp) rfl
        (by simp [statusAfter, hk])
  | enables k answers hp =>
    by_cases hk : j = k
    · subst hk
      exact h.enables hapart hx
    · refine h.other he (hplace j (by simp) (by simp)) ?_ rfl (by simp [statusAfter, hk])
      simp [Fails, Enables, hx, Ne.symm hk]
  | enabled k hp =>
    by_cases hk : j = k
    · subst hk
      exact h.enabled he (hx ▸ hp)
    · exact h.other he (hplace j (by simp) (by simp [Ne.symm hk])) (hpaired hp)
        (by simp [isAliveAfter, hk]) rfl
  | other hop hp =>
    refine h.other he (hplace j ?_ ?_) (hpaired hp) ?_ ?_
    · rintro rfl
      simp [writesTable] at hop
    · rintro rfl
      simp [writesTable] at hop
    · cases op <;> first | rfl | simp [writesTable] at hop
    · cases op <;> first | rfl | simp [writesTable] at hop

theorem Turned.writing {node : Server.Node n} (h : Turned rank node a out)
    (hs : ∀ t, Writing (node.threads t)) (t : ThreadId) : Writing (out.state.threads t) := by
  have hthread := h.thread t
  generalize out.state.threads t = ops at hthread
  cases hthread with
  | same => exact hs t
  | next timedOut now op rest ops out' ha ht he => exact (advances_of_exec (ht ▸ hs t) he).writing
  | first ops ha ht hn => exact .outside (newThread_paired hn)

theorem Turned.tablesHeld {node : Server.Node n} (h : Turned rank node a out)
    (hs : TablesHeld node) (hapart : ∀ op, sectionAt node a = some op → Apart node op) :
    TablesHeld out.state := by
  refine ⟨h.unborn hs.unborn,h.writing hs.writing,?_⟩
  intro j
  cases h.wrote hs with
  | nothing hop hplace =>
    refine (hs.entry j).same (fun t => hplace t j) ?_ ?_
    · rw [h.isAlive, hop]
      rfl
    · rw [h.status, hop]
      rfl
  | advanced t op hop ht hadv hplace =>
    refine entryHeld_of_advances ⟨fun t' ht' => hplace t' ht' j,ht,?_,?_⟩ (hs.entry j) hadv
      (hapart op hop)
    · rw [h.isAlive, hop]
      rfl
    · rw [h.status, hop]
      rfl

theorem Taken.tablesHeld {node x : Server.Node n} (h : Taken rank node src m tag x)
    (hs : TablesHeld node) (halive : x.isAlive = node.isAlive) : TablesHeld x := by
  have hthread : ∀ t, x.threads t = node.threads t ∨
      (node.threads t = [] ∧ x.threads t = [.handleMessage src m]) := by
    intro t
    cases h with
    | kept _ h _ => exact .inl (by rw [h.threads])
    | election ht | failure ht =>
      rw [setThread_threads]
      split
      · rename_i he
        exact .inr ⟨he ▸ ht,rfl⟩
      · exact .inl rfl
  have hnew : Paired [Op.handleMessage src m] := .other rfl .nil
  refine ⟨h.unborn hs.unborn,?_,?_⟩
  · intro t
    rcases hthread t with he | ⟨-,he⟩
    · exact he ▸ hs.writing t
    · exact he ▸ .outside hnew
  · intro j
    refine (hs.entry j).same ?_ (by rw [halive]) (by rw [h.frame.status])
    intro t
    rcases hthread t with he | ⟨hidle,he⟩
    · unfold SamePlace Fails Enables
      rw [he]
      exact ⟨Iff.rfl,Iff.rfl⟩
    · apply samePlace_of_paired
      · exact hidle ▸ .nil
      · exact he ▸ hnew

theorem taken_isAlive {node x : Server.Node n} (h : accept rank node tag src m = some x) :
    x.isAlive = node.isAlive := by
  cases accepts_of_accept h <;> rfl

theorem apart_of_writesApart {s : Server.Cluster n} (hu : Unborn (s.nodes i))
    (h : writesApart s (.act i a) = true) (hop : sectionAt (s.nodes i) a = some op) :
    Apart (s.nodes i) op := by
  unfold writesApart at h
  rw [sectionOf_act, hop] at h
  unfold Apart
  split
  · exact (midEnabling_eq_false hu).mp (by simpa [mover] using h)
  · exact (midFailure_eq_false hu).mp (by simpa [mover] using h)
  · trivial

theorem TablesHeld.start (elected : Option (Fin n)) (i : Fin n) :
    TablesHeld (initialNode elected i) := by
  refine ⟨fun _ _ => rfl,fun _ => .outside .nil,?_⟩
  intro j
  have hfails : ∀ t, ¬ Fails (initialNode elected i) t j := by simp [Fails, initialNode]
  have henables : ∀ t, ¬ Enables (initialNode elected i) t j := by simp [Enables, initialNode]
  constructor
  · exact fun t _ hf => absurd hf (hfails t)
  · exact fun t hf => absurd hf (hfails t)
  · exact fun t he => absurd he (henables t)
  · exact fun _ _ => rfl

theorem reach_tablesHeld {s : Server.Cluster n} {es : Trace n}
    (hr : TraceReach elected (fun _ s l => writesApart s l = true) s es) (i : Fin n) :
    TablesHeld (s.nodes i) := by
  induction hr using TraceReach.run generalizing i with
  | start => exact TablesHeld.start elected i
  | @step s es l t e hr hok hs0 ih hs =>
    cases hs with
    | act k a out ho =>
      by_cases hk : i = k
      · subst hk
        rw [LaneNet.commit_self]
        have ho' : Server.act i (s.nodes i) a = some out := ho
        exact (turned_of_turns (turns_of_act ho')).tablesHeld (ih i)
          (fun op hop => apart_of_writesApart (ih i).unborn hok hop)
      · rw [LaneNet.commit_other _ _ _ hk]
        exact ih i
    | receive tag src dst m rest x hc hx =>
      by_cases hk : i = dst
      · subst hk
        rw [LaneNet.take_self]
        have hx' : Server.accept i (s.nodes i) tag src m = some x := hx
        exact (taken_of_accept hx').tablesHeld (ih i) (taken_isAlive hx')
      · rw [LaneNet.take_other _ _ _ _ _ hk]
        exact ih i

/-- Whenever nobody is between its writes for a peer, the two tables agree about it, and
its traffic is dropped exactly while it is regarded as dead. -/
theorem liveness_tables_agree (elected : Option (Fin n))
    (hr : TraceReach elected (fun _ s l => writesApart s l = true) s es) (i j : Fin n)
    (hf : midFailure (s.nodes i) j = false) (he : midEnabling (s.nodes i) j = false) :
    (s.nodes i).isAlive j = (s.nodes i).processIsAlive j ∧
    ∀ tag, tag ≠ .failureDetection → j ≠ i →
      (s.nodes i).dropsFrom i j tag = !(s.nodes i).isAlive j := by
  have hs := reach_tablesHeld hr i
  have hagree : (s.nodes i).isAlive j = (s.nodes i).processIsAlive j := by
    apply (hs.entry j).agree
    · exact (midFailure_eq_false hs.unborn).mp hf
    · exact (midEnabling_eq_false hs.unborn).mp he
  refine ⟨hagree,?_⟩
  intro tag htag hij
  have hother : (j == i) = false := by simpa using hij
  have htag' : (tag == MessageTag.failureDetection) = false := by simpa using htag
  rw [hagree]
  simp [Server.Node.dropsFrom, messageShouldDrop, htag', hother]

/-- `L` marks `p` dead, recovers it and broadcasts RECOVERED. -/
def recoversPeer (L p : Fin n) : List (Server.Move n) :=
  Move.marksDead L p 0 ++ Move.sendsState L p 1 5 ++ Move.failure L p 2 ++ Move.failure p L 7 ++
  Move.sections L (.spawned 1) 2 5

/-- `q` marks `p` dead before it hears of the recovery. -/
def marksBefore (L p q : Fin n) : List (Server.Move n) :=
  recoversPeer L p ++ Move.marksDead q p 0 ++ Move.failure L q 3

/-- `q` hears of the recovery between the two writes of its failure thread. -/
def marksAcross (L p q : Fin n) : List (Server.Move n) :=
  recoversPeer L p ++ .act q (.detectFailure p)::Move.sections q (.spawned 0) 1 0 ++
  Move.failure L q 3 ++ Move.sections q (.spawned 0) 2 0

/-- The entries of `q` for `p`, and whether `q` is at rest. -/
def entriesOf (q p : Fin n) (r : Server.Cluster n × Trace n) : Bool × Bool × Bool × Bool × Bool :=
  let node := r.1.nodes q
  (node.isAlive p,node.processIsAlive p,midFailure node p,midEnabling node p,resting node)

theorem marksBefore_end : traceOutcome (some (2 : Fin 3)) (fun _ => writesApart)
    (marksBefore 2 0 1) (entriesOf 1 0) = some (true,true,false,false,true) := by
  decide

theorem marksAcross_end : traceOutcome (some (2 : Fin 3)) (fun _ _ _ => true)
    (marksAcross 2 0 1) (entriesOf 1 0) = some (true,false,false,false,true) := by
  decide

theorem liveness_tables_agree_marksBefore : ∃ (s : Server.Cluster 3) (es : Trace 3),
    TraceReach (some 2) (fun _ s l => writesApart s l = true) s es ∧
    (s.nodes 1).isAlive 0 = (s.nodes 1).processIsAlive 0 := by
  obtain ⟨s,es,hr,h⟩ := Machine.exists_reach (fun _ _ _ h => h) marksBefore_end
  simp only [entriesOf, Prod.mk.injEq] at h
  obtain ⟨-,-,hf,he,-⟩ := h
  exact ⟨s,es,hr,(liveness_tables_agree (some 2) hr 1 0 hf he).1⟩

/-- Node 1 regards node 0 as alive and drops its traffic, with nothing left to run. -/
theorem liveness_tables_disagree : ∃ (s : Server.Cluster 3) (es : Trace 3),
    TraceReach (some 2) Machine.free s es ∧ resting (s.nodes 1) = true ∧
    midFailure (s.nodes 1) 0 = false ∧ midEnabling (s.nodes 1) 0 = false ∧
    (s.nodes 1).isAlive 0 = true ∧ (s.nodes 1).processIsAlive 0 = false := by
  obtain ⟨s,es,hr,h⟩ := Machine.exists_reach (fun _ _ _ _ => trivial) marksAcross_end
  simp only [entriesOf, Prod.mk.injEq] at h
  obtain ⟨halive,hstatus,hf,he,hrest⟩ := h
  exact ⟨s,es,hr,hrest,hf,he,halive,hstatus⟩

end Algorep.Proofs
