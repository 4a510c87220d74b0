import Algorep.Program.PeerTables
import Mathlib.Data.Set.Function

namespace Algorep.Proofs
open Kit Program PeerTables

/-! Indices and ids. -/

theorem idToIndex_indexToId (nodeId index : Int) :
    idToIndex nodeId (indexToId nodeId index) = index := by
  by_cases h : index < nodeId
  · rw [indexToId, if_pos h, idToIndex, if_pos h]
  · have hnext : ¬ index + 1 < nodeId := by omega
    rw [indexToId, if_neg h, idToIndex, if_neg hnext]
    omega

theorem indexToId_idToIndex {nodeId j : Int} (h : j ≠ nodeId) :
    indexToId nodeId (idToIndex nodeId j) = j := by
  by_cases hj : j < nodeId
  · rw [idToIndex, if_pos hj, indexToId, if_pos hj]
  · have hbefore : ¬ j - 1 < nodeId := by omega
    rw [idToIndex, if_neg hj, indexToId, if_neg hbefore]
    omega

/-- The nodes, the peers of one of them, and the indices of its peers. -/
abbrev nodeSet (n : Nat) : Set Int := {j | 0 ≤ j ∧ j < n}

abbrev peerSet (rank : Fin n) : Set Int := nodeSet n \ {(rank.val : Int)}

abbrev indexSet (n : Nat) : Set Int := {i | 0 ≤ i ∧ i < n - 1}

theorem indexToId_mapsTo (rank : Fin n) :
    Set.MapsTo (indexToId rank.val) (indexSet n) (peerSet rank) := by
  intro i hi
  have hrank := rank.isLt
  simp only [Set.mem_ofPred_eq, Set.mem_sdiff, Set.mem_singleton_iff, indexToId] at hi ⊢
  split <;> omega

theorem idToIndex_mapsTo (rank : Fin n) :
    Set.MapsTo (idToIndex rank.val) (peerSet rank) (indexSet n) := by
  intro j hj
  have hrank := rank.isLt
  simp only [Set.mem_ofPred_eq, Set.mem_sdiff, Set.mem_singleton_iff, idToIndex] at hj ⊢
  split <;> omega

theorem indexToId_invOn (rank : Fin n) :
    Set.InvOn (idToIndex rank.val) (indexToId rank.val) (indexSet n) (peerSet rank) :=
  ⟨fun i _ => idToIndex_indexToId _ i,fun _ hj => indexToId_idToIndex hj.2⟩

theorem peer_mem (j : Peer rank) : (j.val.val : Int) ∈ peerSet rank := by
  have hj := j.val.isLt
  have hne : j.val.val ≠ rank.val := fun he => j.property (Fin.ext he)
  simp only [Set.mem_ofPred_eq, Set.mem_sdiff, Set.mem_singleton_iff]
  omega

/-! The tables. -/

/-- There is an entry for each peer. -/
structure Full (n : Nat) (tables : Tables) : Prop where
  timeStamps : (tables.timeStamps.length : Int) = n - 1
  isAlive : (tables.isAlive.length : Int) = n - 1
  processIsAlive : (tables.processIsAlive.length : Int) = n - 1

/-- Two states of the tables have the same entries at an index. -/
structure SameAt (index : Int) (x y : Tables) : Prop where
  timeStamps : readAt y.timeStamps index = readAt x.timeStamps index
  isAlive : readAt y.isAlive index = readAt x.isAlive index
  processIsAlive : readAt y.processIsAlive index = readAt x.processIsAlive index

theorem SameAt.refl (index : Int) (x : Tables) : SameAt index x x := ⟨rfl,rfl,rfl⟩

theorem inBounds_of_mem {n : Nat} {xs : List α} (hlength : (xs.length : Int) = n - 1)
    (h : index ∈ indexSet n) : InBounds xs index :=
  ⟨h.1,hlength ▸ h.2⟩

/-- `messageShouldDrop` reads the entry that `idToIndex` names, or none. -/
theorem messageShouldDrop_eq (processIsAlive : List Bool) (nodeId j : Int) (onWorld : Bool)
    (tag : MessageTag) : PeerTables.messageShouldDrop processIsAlive nodeId j onWorld tag =
      if j = nodeId ∨ onWorld = false then some false
      else (readAt processIsAlive (idToIndex nodeId j)).map
        (fun alive => !(alive || tag == .failureDetection)) :=
  rfl

/-- The status of any node can be asked for, also of the server itself. -/
theorem messageShouldDrop_ok (rank : Fin n) {processIsAlive : List Bool}
    (hlength : (processIsAlive.length : Int) = n - 1) (j : Int) (hj : j ∈ nodeSet n)
    (onWorld : Bool) (tag : MessageTag) :
    ∃ b, PeerTables.messageShouldDrop processIsAlive rank.val j onWorld tag = some b := by
  rw [messageShouldDrop_eq]
  split
  · exact ⟨false,rfl⟩
  · rename_i hother
    have hindex : idToIndex rank.val j ∈ indexSet n :=
      idToIndex_mapsTo rank ⟨hj,fun hself => hother (.inl hself)⟩
    obtain ⟨alive,hread⟩ := readAt_of_inBounds (inBounds_of_mem hlength hindex)
    rw [hread]
    exact ⟨_,rfl⟩

theorem send_ok (rank : Fin n) {processIsAlive : List Bool}
    (hlength : (processIsAlive.length : Int) = n - 1) (j : Int) (hj : j ∈ nodeSet n)
    (onWorld : Bool) (tag : MessageTag) :
    ∃ b, PeerTables.send processIsAlive rank.val j onWorld tag = some b := by
  obtain ⟨b,hb⟩ := messageShouldDrop_ok rank hlength j hj onWorld tag
  exact ⟨!b,by rw [PeerTables.send, hb]; rfl⟩

/-- Writes that find their entry. -/
theorem Full.setNodeStatus (h : Full n x) (hindex : index ∈ indexSet n) (value : Bool) :
    ∃ y, PeerTables.setNodeStatus x index value = some y := by
  rw [PeerTables.setNodeStatus, writeAt_of_inBounds (inBounds_of_mem h.processIsAlive hindex)]
  exact ⟨_,rfl⟩

theorem Full.setIsAlive (h : Full n x) (hindex : index ∈ indexSet n) (value : Bool) :
    ∃ y, PeerTables.setIsAlive x index value = some y := by
  rw [PeerTables.setIsAlive, writeAt_of_inBounds (inBounds_of_mem h.isAlive hindex)]
  exact ⟨_,rfl⟩

theorem Full.setTimeStamp (h : Full n x) (hindex : index ∈ indexSet n) (now : Int) :
    ∃ y, PeerTables.setTimeStamp x index now = some y := by
  rw [PeerTables.setTimeStamp, writeAt_of_inBounds (inBounds_of_mem h.timeStamps hindex)]
  exact ⟨_,rfl⟩

theorem Full.checkTimeStamp (h : Full n x) (hindex : index ∈ indexSet n) (rank cur : Int)
    (mayRecover : Bool) : ∃ found, PeerTables.checkTimeStamp rank index x cur mayRecover =
      some found := by
  obtain ⟨lastSeen,hseen⟩ := readAt_of_inBounds (inBounds_of_mem h.timeStamps hindex)
  obtain ⟨alive,halive⟩ := readAt_of_inBounds (inBounds_of_mem h.isAlive hindex)
  rw [PeerTables.checkTimeStamp, hseen, Option.bind_some, halive, Option.bind_some]
  split
  · exact ⟨_,rfl⟩
  · exact ⟨_,rfl⟩

theorem setNodeStatus_spec (h : PeerTables.setNodeStatus x index value = some y) :
    writeAt x.processIsAlive index value = some y.processIsAlive ∧
      y.timeStamps = x.timeStamps ∧ y.isAlive = x.isAlive := by
  obtain ⟨processIsAlive,hw,rfl⟩ := Option.map_eq_some_iff.mp h
  exact ⟨hw,rfl,rfl⟩

theorem setIsAlive_spec (h : PeerTables.setIsAlive x index value = some y) :
    writeAt x.isAlive index value = some y.isAlive ∧
      y.timeStamps = x.timeStamps ∧ y.processIsAlive = x.processIsAlive := by
  obtain ⟨isAlive,hw,rfl⟩ := Option.map_eq_some_iff.mp h
  exact ⟨hw,rfl,rfl⟩

theorem setTimeStamp_spec (h : PeerTables.setTimeStamp x index now = some y) :
    writeAt x.timeStamps index now = some y.timeStamps ∧
      y.isAlive = x.isAlive ∧ y.processIsAlive = x.processIsAlive := by
  obtain ⟨timeStamps,hw,rfl⟩ := Option.map_eq_some_iff.mp h
  exact ⟨hw,rfl,rfl⟩

/-! Sections. -/

/-- The index that a section writes to. -/
def writtenIndex (rank : Int) : Section → Option Int
  | .handlePing srcNodeId => some (idToIndex rank srcNodeId)
  | .setNodeStatus nodeIndex _ | .setIsAlive nodeIndex _ => some nodeIndex
  | .setTimeStamp i => some i
  | .send _ _ | .checkTimeStamp _ => none

/-- What a section asks of its arguments. -/
def Addressed (rank : Fin n) : Section → Prop
  | .send dstNodeId _ => dstNodeId ∈ nodeSet n
  | .handlePing srcNodeId => srcNodeId ∈ peerSet rank
  | .setNodeStatus nodeIndex _ | .setIsAlive nodeIndex _ => nodeIndex ∈ indexSet n
  | .setTimeStamp i | .checkTimeStamp i => i ∈ indexSet n

/-- What a section does to the tables. -/
inductive WroteEntry (rank : Int) (x : Tables) : Section → Tables → Prop
  | none (hnone : writtenIndex rank sec = none) : WroteEntry rank x sec x
  | status (hw : PeerTables.setNodeStatus x i value = some y) :
      WroteEntry rank x (.setNodeStatus i value) y
  | alive (hw : PeerTables.setIsAlive x i value = some y) :
      WroteEntry rank x (.setIsAlive i value) y
  | timeStamp (hindex : writtenIndex rank sec = some i)
      (hw : PeerTables.setTimeStamp x i now = some y) : WroteEntry rank x sec y

theorem wroteEntry_of_exec (h : exec rank x now mayRecover sec = some (y,found)) :
    WroteEntry rank x sec y := by
  cases sec with
  | send | checkTimeStamp =>
    obtain ⟨b,-,he⟩ := Option.map_eq_some_iff.mp h
    cases he
    exact .none rfl
  | handlePing | setTimeStamp =>
    obtain ⟨y',hw,he⟩ := Option.map_eq_some_iff.mp h
    cases he
    exact .timeStamp rfl hw
  | setNodeStatus =>
    obtain ⟨y',hw,he⟩ := Option.map_eq_some_iff.mp h
    cases he
    exact .status hw
  | setIsAlive =>
    obtain ⟨y',hw,he⟩ := Option.map_eq_some_iff.mp h
    cases he
    exact .alive hw

theorem WroteEntry.full (h : WroteEntry rank x sec y) (hx : Full n x) : Full n y := by
  cases h with
  | none => exact hx
  | status hw =>
    obtain ⟨hwrite,hstamps,halive⟩ := setNodeStatus_spec hw
    exact ⟨hstamps ▸ hx.timeStamps,halive ▸ hx.isAlive,writeAt_length hwrite ▸ hx.processIsAlive⟩
  | alive hw =>
    obtain ⟨hwrite,hstamps,hstatus⟩ := setIsAlive_spec hw
    exact ⟨hstamps ▸ hx.timeStamps,writeAt_length hwrite ▸ hx.isAlive,hstatus ▸ hx.processIsAlive⟩
  | timeStamp _ hw =>
    obtain ⟨hwrite,halive,hstatus⟩ := setTimeStamp_spec hw
    exact ⟨writeAt_length hwrite ▸ hx.timeStamps,halive ▸ hx.isAlive,hstatus ▸ hx.processIsAlive⟩

theorem WroteEntry.unwritten (h : WroteEntry rank x sec y)
    (hnone : ∀ i, writtenIndex rank sec ≠ some i) :
    y = x := by
  cases h with
  | none => rfl
  | status | alive => exact absurd rfl (hnone _)
  | timeStamp hindex => exact absurd hindex (hnone _)

/-- No entry changes but the one that is written to. -/
theorem WroteEntry.sameAt (h : WroteEntry rank x sec y)
    (hindex : writtenIndex rank sec ≠ some index) :
    SameAt index x y := by
  cases h with
  | none => exact .refl index x
  | @status i _ _ hw =>
    have hne : index ≠ i := fun he => hindex (congrArg some he.symm)
    obtain ⟨hwrite,hstamps,halive⟩ := setNodeStatus_spec hw
    exact ⟨by rw [hstamps],by rw [halive],writeAt_other hwrite hne⟩
  | @alive i _ _ hw =>
    have hne : index ≠ i := fun he => hindex (congrArg some he.symm)
    obtain ⟨hwrite,hstamps,hstatus⟩ := setIsAlive_spec hw
    exact ⟨by rw [hstamps],writeAt_other hwrite hne,by rw [hstatus]⟩
  | @timeStamp _ i _ _ hwritten hw =>
    have hne : index ≠ i := fun he => hindex (he ▸ hwritten)
    obtain ⟨hwrite,halive,hstatus⟩ := setTimeStamp_spec hw
    exact ⟨writeAt_other hwrite hne,by rw [halive],by rw [hstatus]⟩

theorem WroteEntry.liveness (h : WroteEntry rank x (.setTimeStamp i) y) :
    y.isAlive = x.isAlive ∧ y.processIsAlive = x.processIsAlive := by
  cases h with
  | none hnone => contradiction
  | timeStamp _ hw => exact (setTimeStamp_spec hw).2

/-- An addressed section finds all its entries. -/
theorem exec_ok {rank : Fin n} (hx : Full n x) (h : Addressed rank sec) (now : Int)
    (mayRecover : Bool) : ∃ y found, exec rank.val x now mayRecover sec = some (y,found) := by
  cases sec with
  | send dstNodeId tag =>
    obtain ⟨b,hb⟩ := send_ok rank hx.processIsAlive dstNodeId h true tag
    exact ⟨x,none,by rw [exec, hb]; rfl⟩
  | handlePing srcNodeId =>
    obtain ⟨y,hy⟩ := hx.setTimeStamp (idToIndex_mapsTo rank h) now
    exact ⟨y,none,by rw [exec, PeerTables.handlePing, hy]; rfl⟩
  | setNodeStatus i value =>
    obtain ⟨y,hy⟩ := hx.setNodeStatus h value
    exact ⟨y,none,by rw [exec, hy]; rfl⟩
  | setIsAlive i value =>
    obtain ⟨y,hy⟩ := hx.setIsAlive h value
    exact ⟨y,none,by rw [exec, hy]; rfl⟩
  | setTimeStamp i =>
    obtain ⟨y,hy⟩ := hx.setTimeStamp h now
    exact ⟨y,none,by rw [exec, hy]; rfl⟩
  | checkTimeStamp i =>
    obtain ⟨found,hfound⟩ := hx.checkTimeStamp h rank.val now mayRecover
    exact ⟨x,found,by rw [exec, hfound]; rfl⟩

/-- What is found has the index of its round. -/
theorem found_of_exec (h : exec rank x now mayRecover sec = some (y,some detection)) :
    ∃ i, sec = .checkTimeStamp i ∧ (detection = .failure i (checkedNodeId rank i) ∨
      detection = .recovery i (checkedNodeId rank i)) := by
  cases sec with
  | send | handlePing | setNodeStatus | setIsAlive | setTimeStamp =>
    obtain ⟨b,-,he⟩ := Option.map_eq_some_iff.mp h
    cases he
  | checkTimeStamp i =>
    obtain ⟨found,hfound,he⟩ := Option.map_eq_some_iff.mp h
    cases he
    refine ⟨i,rfl,?_⟩
    simp only [PeerTables.checkTimeStamp, Option.bind_eq_some_iff] at hfound
    obtain ⟨lastSeen,-,alive,-,hfound⟩ := hfound
    split at hfound
    · cases hfound
      exact .inl rfl
    · obtain ⟨alive',-,hfound⟩ := Option.map_eq_some_iff.mp hfound
      split at hfound
      · cases hfound
        exact .inr rfl
      · contradiction

/-! Calls. -/

/-- The node that a call is about. -/
def aboutNode {rank : Fin n} : Call rank → Option Int
  | .handleMessage (.ping srcNodeId) => some srcNodeId.val.val
  | .handleMessage (.state _) => none
  | .handleMessage (.stateUpdated srcNodeId) => some srcNodeId.val.val
  | .handleMessage (.recovered recoveredNodeId) => some recoveredNodeId.val
  | .pingCheck => none
  | .handleNodeFailure nodeIndex => some (indexToId rank.val nodeIndex)
  | .handleNodeRecovery _ => none

/-- A call that is given an index is given that of a peer. -/
def IndexedCall {rank : Fin n} : Call rank → Prop
  | .handleNodeFailure nodeIndex | .handleNodeRecovery nodeIndex => nodeIndex ∈ indexSet n
  | .handleMessage _ | .pingCheck => True

theorem node_mem (j : Fin n) : (j.val : Int) ∈ nodeSet n := by
  have hj := j.isLt
  simp only [Set.mem_ofPred_eq]
  omega

theorem aboutNode_mem {rank : Fin n} {call : Call rank} (hcall : IndexedCall call)
    (h : aboutNode call = some j) (hj : j ≠ rank.val) : j ∈ peerSet rank := by
  cases call with
  | handleMessage message =>
    cases message with
    | ping srcNodeId | stateUpdated srcNodeId =>
      cases h
      exact peer_mem srcNodeId
    | state => contradiction
    | recovered recoveredNodeId =>
      cases h
      exact ⟨node_mem recoveredNodeId,hj⟩
  | pingCheck | handleNodeRecovery => contradiction
  | handleNodeFailure nodeIndex =>
    cases h
    exact indexToId_mapsTo rank hcall

theorem mem_indices (n : Nat) (i : Int) : i ∈ indices n ↔ i ∈ indexSet n := by
  simp only [indices, List.mem_map, List.mem_range, Set.mem_ofPred_eq]
  constructor
  · rintro ⟨k,hk,rfl⟩
    simp only [Int.ofNat_eq_natCast]
    omega
  · intro hi
    exact ⟨i.toNat,by omega,Int.toNat_of_nonneg hi.1⟩

theorem broadcast_mem {rank : Fin n} (h : sec ∈ broadcast rank tag) :
    ∃ i : Fin n, sec = .send i.val tag := by
  obtain ⟨i,-,rfl⟩ := List.mem_map.mp h
  exact ⟨i,rfl⟩

theorem enableComm_mem (h : sec ∈ enableComm rank j) :
    sec = .setNodeStatus (idToIndex rank j) true ∨ sec = .setIsAlive (idToIndex rank j) true := by
  simpa [enableComm] using h

/-- Everything that a call can run. -/
inductive SectionOf {rank : Fin n} : Call rank → Section → Prop
  | sends (call : Call rank) (dstNodeId : Fin n) (tag : MessageTag) :
      SectionOf call (.send dstNodeId.val tag)
  | announces (nodeIndex : Int) : SectionOf (.handleNodeRecovery nodeIndex)
      (.send (indexToId rank.val nodeIndex) .failureDetection)
  | stamps (srcNodeId : Peer rank) :
      SectionOf (.handleMessage (.ping srcNodeId)) (.handlePing srcNodeId.val.val)
  | resets (hi : i ∈ indexSet n) : SectionOf (.handleMessage (.recovered rank)) (.setTimeStamp i)
  | checks (hi : i ∈ indexSet n) : SectionOf .pingCheck (.checkTimeStamp i)
  | enables (j : Peer rank) (habout : aboutNode call = some (j.val.val : Int))
      (hsec : sec ∈ enableComm rank.val j.val.val) : SectionOf call sec
  | fails (nodeIndex : Int) (hsec : sec ∈ PeerTables.handleNodeFailure nodeIndex) :
      SectionOf (.handleNodeFailure nodeIndex) sec

theorem sectionOf_mem {rank : Fin n} {call : Call rank} (h : sec ∈ call.sections accepted) :
    SectionOf call sec := by
  cases call with
  | handleMessage message =>
    cases message with
    | ping srcNodeId =>
      rw [List.mem_singleton.mp h]
      exact .stamps srcNodeId
    | state srcNodeId =>
      rw [List.mem_singleton.mp h]
      exact .sends _ srcNodeId _
    | stateUpdated srcNodeId =>
      rcases List.mem_append.mp h with h | h
      · split at h
        · rcases List.mem_append.mp h with h | h
          · obtain ⟨i,rfl⟩ := broadcast_mem h
            exact .sends _ i _
          · exact .enables srcNodeId rfl h
        · contradiction
      · rw [List.mem_singleton.mp h]
        exact .sends _ srcNodeId.val _
    | recovered recoveredNodeId =>
      simp only [Call.sections, PeerTables.handleRecovered] at h
      split at h
      · rename_i hself
        obtain rfl : rank = recoveredNodeId := Fin.ext (Int.ofNat.inj hself)
        obtain ⟨i,hi,rfl⟩ := List.mem_map.mp h
        exact .resets ((mem_indices n i).mp hi)
      · rename_i hother
        have hpeer : recoveredNodeId ≠ rank := fun he => hother (by rw [he])
        exact .enables ⟨recoveredNodeId,hpeer⟩ rfl h
  | pingCheck =>
    rcases List.mem_append.mp h with h | h
    · obtain ⟨i,hi,rfl⟩ := List.mem_map.mp h
      exact .checks ((mem_indices n i).mp hi)
    · obtain ⟨i,rfl⟩ := broadcast_mem h
      exact .sends _ i _
  | handleNodeFailure nodeIndex => exact .fails nodeIndex h
  | handleNodeRecovery nodeIndex =>
    rw [List.mem_singleton.mp h]
    exact .announces nodeIndex

/-- The sections of each call are addressed to nodes, and to entries of peers. -/
theorem SectionOf.addressed {rank : Fin n} {call : Call rank} (h : SectionOf call sec)
    (hcall : IndexedCall call) : Addressed rank sec := by
  cases h with
  | sends _ dstNodeId => exact node_mem dstNodeId
  | announces nodeIndex => exact (indexToId_mapsTo rank hcall).1
  | stamps srcNodeId => exact peer_mem srcNodeId
  | resets hi | checks hi => exact hi
  | enables j habout hsec =>
    have hindex := idToIndex_mapsTo rank (peer_mem j)
    rcases enableComm_mem hsec with rfl | rfl
    · exact hindex
    · exact hindex
  | fails nodeIndex hsec =>
    rcases List.mem_pair.mp hsec with rfl | rfl
    · exact hcall
    · exact hcall

/-- A call writes to the entry of the peer that it is about. -/
theorem SectionOf.written {rank : Fin n} {call : Call rank} (h : SectionOf call sec)
    (hi : writtenIndex rank.val sec = some i) : ∃ j, aboutNode call = some j ∧
      (j ≠ rank.val → i = idToIndex rank.val j) := by
  cases h with
  | sends | announces | checks => contradiction
  | stamps srcNodeId => exact ⟨_,rfl,fun _ => (Option.some.inj hi).symm⟩
  | resets => exact ⟨_,rfl,fun hother => absurd rfl hother⟩
  | enables j habout hsec =>
    refine ⟨_,habout,fun _ => ?_⟩
    rcases enableComm_mem hsec with rfl | rfl
    · exact (Option.some.inj hi).symm
    · exact (Option.some.inj hi).symm
  | fails nodeIndex hsec =>
    refine ⟨_,rfl,fun _ => ?_⟩
    rw [idToIndex_indexToId]
    rcases List.mem_pair.mp hsec with rfl | rfl
    · exact (Option.some.inj hi).symm
    · exact (Option.some.inj hi).symm

/-- A RECOVERED that names the server itself only resets time stamps. -/
theorem SectionOf.own {rank : Fin n}
    (h : SectionOf (.handleMessage (.recovered rank) : Call rank) sec) :
    writtenIndex rank.val sec = none ∨ ∃ i, sec = .setTimeStamp i := by
  cases h with
  | sends => exact .inl rfl
  | @resets i => exact .inr ⟨i,rfl⟩
  | enables j habout => exact absurd (Option.some.inj habout).symm (peer_mem j).2

/-! Runs. -/

theorem start_eq (clusterSize : Nat) (x : Tables) : PeerTables.start clusterSize x =
    some { x with processIsAlive := (List.range (clusterSize - 1)).map (fun _ => true) } := by
  rw [PeerTables.start, assign_resize]
  rfl

theorem init_eq (clusterSize : Nat) (now : Nat → Int) (x : Tables) :
    PeerTables.init clusterSize now x = some { x with
      timeStamps := (List.range (clusterSize - 1)).map now
      isAlive := (List.range (clusterSize - 1)).map (fun _ => true) } := by
  rw [PeerTables.init]
  simp only [assign_resize, Option.bind_some, Option.map_some]

/-- A vector that is filled has an entry for each peer. -/
theorem filled_length (rank : Fin n) (value : Nat → α) :
    (((List.range (n - 1)).map value).length : Int) = n - 1 := by
  have hrank := rank.isLt
  simp only [List.length_map, List.length_range]
  omega

section
variable {n : Nat} {rank : Fin n} {s t : State rank} {l : Move rank} {es : List Detection}

structure PeersOk (s : State rank) : Prop where
  inBounds : s.outOfBounds = false
  status : s.stage ≠ .constructed → (s.tables.processIsAlive.length : Int) = n - 1
  full : s.stage = .initialised → Full n s.tables
  threads : ∀ t, ∀ p ∈ s.threads t, s.stage = .initialised ∧ IndexedCall p.1 ∧ SectionOf p.1 p.2

/-- What a step can do. -/
inductive PeerStep (s : State rank) : Move rank → State rank → List Detection → Prop
  | starts (hstage : s.stage = .constructed) (h : PeerTables.start n s.tables = some y) :
      PeerStep s .start { s with tables := y, stage := .started } []
  | inits (hstage : s.stage = .started) (h : PeerTables.init n now s.tables = some y) :
      PeerStep s (.init now) { s with tables := y, stage := .initialised } []
  | sends (dstNodeId : Fin n) (onWorld : Bool) (tag : MessageTag) :
      PeerStep s (.send dstNodeId onWorld tag) s []
  | receives (srcNodeId : Fin n) (onWorld : Bool) (tag : MessageTag) :
      PeerStep s (.receive srcNodeId onWorld tag) s []
  | handles (message : Message rank) (accepted : Bool) (hstage : s.stage = .initialised) :
      PeerStep s (.handleMessage message accepted)
        (s.enter .failureReceiver (.handleMessage message) accepted) []
  | pings (hstage : s.stage = .initialised) :
      PeerStep s .pingCheck (s.enter .ping .pingCheck false) []
  | runs (t : Thread) (now : Int) (mayRecover : Bool) (ht : s.threads t = (call,sec)::rest)
      (h : exec rank.val s.tables now mayRecover sec = some (y,found)) :
      PeerStep s (.run t now mayRecover) (({ s with tables := y }.setThread t rest).detach found)
        found.toList

theorem peerStep_of_step (h : PeersOk s)
    (hs : PeerTables.step s l = some (t,x)) : PeerStep s l t x := by
  have hstep := hs
  unfold PeerTables.step at hstep
  rw [if_neg (by simp [h.inBounds])] at hstep
  cases l with
  | start =>
    obtain ⟨hstage,he⟩ := Option.ite_none_right_eq_some.mp hstep
    rw [start_eq] at he
    cases he
    exact .starts hstage (start_eq n s.tables)
  | init now =>
    obtain ⟨hstage,he⟩ := Option.ite_none_right_eq_some.mp hstep
    rw [init_eq] at he
    cases he
    exact .inits hstage (init_eq n now s.tables)
  | send dstNodeId onWorld tag =>
    obtain ⟨hstage,he⟩ := Option.ite_none_left_eq_some.mp hstep
    obtain ⟨b,hb⟩ := send_ok rank (h.status hstage) _ (node_mem dstNodeId) onWorld tag
    rw [hb] at he
    cases he
    exact .sends dstNodeId onWorld tag
  | receive srcNodeId onWorld tag =>
    obtain ⟨hstage,he⟩ := Option.ite_none_left_eq_some.mp hstep
    obtain ⟨b,hb⟩ := messageShouldDrop_ok rank (h.status hstage) _ (node_mem srcNodeId)
      onWorld tag
    rw [hb] at he
    cases he
    exact .receives srcNodeId onWorld tag
  | handleMessage message accepted =>
    obtain ⟨⟨hstage,-⟩,he⟩ := Option.ite_none_right_eq_some.mp hstep
    cases he
    exact .handles message accepted hstage
  | pingCheck =>
    obtain ⟨⟨hstage,-⟩,he⟩ := Option.ite_none_right_eq_some.mp hstep
    cases he
    exact .pings hstage
  | run t now mayRecover =>
    simp only at hstep
    split at hstep
    · contradiction
    · rename_i call sec rest ht
      obtain ⟨hstage,hcall,hsec⟩ := h.threads t _ (ht ▸ List.mem_cons_self)
      obtain ⟨y,found,hy⟩ := exec_ok (h.full hstage) (hsec.addressed hcall) now mayRecover
      rw [hy] at hstep
      cases hstep
      exact .runs t now mayRecover ht hy

theorem PeersOk.enter (h : PeersOk s) (t : Thread) {call : Call rank}
    (hstage : s.stage = .initialised) (hcall : IndexedCall call)
    (accepted : Bool) : PeersOk (s.enter t call accepted) := by
  refine ⟨h.inBounds,h.status,h.full,?_⟩
  intro u p hp
  by_cases hu : u = t
  · subst hu
    have hp' : p ∈ (call.sections accepted).map (call,·) := by
      simpa [State.enter, State.setThread] using hp
    obtain ⟨sec,hsec,rfl⟩ := List.mem_map.mp hp'
    exact ⟨hstage,hcall,sectionOf_mem hsec⟩
  · have hp' : p ∈ s.threads u := by simpa [State.enter, State.setThread, hu] using hp
    exact h.threads u p hp'

theorem PeersOk.detach (h : PeersOk s) (hstage : s.stage = .initialised)
    (hfound : ∀ detection, found = some detection → IndexedCall (detection.call : Call rank)) :
    PeersOk (s.detach found) := by
  cases found with
  | none => exact h
  | some detection =>
    have henter := h.enter (.detached s.detached) hstage (hfound detection rfl) false
    exact ⟨henter.inBounds,henter.status,henter.full,henter.threads⟩

/-- A thread is left with the rest of what it had. -/
theorem PeersOk.advance {t : Thread} {rest : List (Call rank × Section)} (h : PeersOk s)
    (ht : s.threads t = p::rest) (hfull : Full n y) :
    PeersOk ({ s with tables := y }.setThread t rest) := by
  refine ⟨h.inBounds,fun _ => hfull.processIsAlive,fun _ => hfull,?_⟩
  intro u q hq
  by_cases hu : u = t
  · subst hu
    have hq' : q ∈ rest := by simpa [State.setThread] using hq
    exact h.threads u q (ht ▸ List.mem_cons_of_mem _ hq')
  · have hq' : q ∈ s.threads u := by simpa [State.setThread, hu] using hq
    exact h.threads u q hq'

theorem PeersOk.step (h : PeersOk s) (hs : PeerStep s l t x) : PeersOk t := by
  cases hs with
  | starts hstage hy =>
    obtain rfl := Option.some.inj ((start_eq n s.tables).symm.trans hy)
    refine ⟨h.inBounds,fun _ => filled_length rank _,fun hinit => ?_,?_⟩
    · cases hinit
    intro u p hp
    have hnot := (h.threads u p hp).1
    rw [hstage] at hnot
    contradiction
  | inits hstage hy =>
    obtain rfl := Option.some.inj ((init_eq n _ s.tables).symm.trans hy)
    have hstatus := h.status (by simp [hstage])
    exact ⟨h.inBounds,fun _ => hstatus,fun _ => ⟨filled_length rank _,filled_length rank _,hstatus⟩,
      fun u p hp => ⟨rfl,(h.threads u p hp).2⟩⟩
  | sends | receives => exact h
  | handles message accepted hstage =>
    have hcall : IndexedCall (Call.handleMessage message) := trivial
    exact h.enter _ hstage hcall accepted
  | pings hstage =>
    have hcall : IndexedCall (.pingCheck : Call rank) := trivial
    exact h.enter _ hstage hcall false
  | runs u now mayRecover hu hexec =>
    obtain ⟨hstage,hcall,hsec⟩ := h.threads u _ (hu ▸ List.mem_cons_self)
    have hfull := (wroteEntry_of_exec hexec).full (h.full hstage)
    apply (h.advance hu hfull).detach hstage
    rintro detection rfl
    obtain ⟨i,rfl,hd⟩ := found_of_exec hexec
    have hi : i ∈ indexSet n := hsec.addressed hcall
    rcases hd with rfl | rfl
    · exact hi
    · exact hi

theorem reach_peersOk (hr : (peerTables rank).Reach ok s es) : PeersOk s := by
  induction hr with
  | start =>
    refine ⟨rfl,fun hstage => absurd rfl hstage,fun hstage => ?_,fun t p hp => ?_⟩
    · cases hstage
    · cases hp
  | step _ _ hs ih => exact ih.step (peerStep_of_step ih hs)

/-- The call of which a move runs a section. -/
def runningCall (s : State rank) : Move rank → Option (Call rank)
  | .run t _ _ => (s.threads t).head?.map (·.1)
  | _ => none

/-- What is run is part of its call, and finds its entries. -/
theorem PeersOk.runs (h : PeersOk s) (hs : PeerTables.step s l = some (t,x))
    (hcall : runningCall s l = some call) : IndexedCall call ∧
      ∃ sec, SectionOf call sec ∧ WroteEntry rank.val s.tables sec t.tables := by
  cases peerStep_of_step h hs with
  | starts | inits | sends | receives | handles | pings => contradiction
  | @runs _ _ _ y found u now mayRecover hu hexec =>
    simp only [runningCall, hu, List.head?_cons, Option.map_some, Option.some.injEq] at hcall
    subst hcall
    obtain ⟨-,hindexed,hsec⟩ := h.threads u _ (hu ▸ List.mem_cons_self)
    refine ⟨hindexed,_,hsec,?_⟩
    have hwrote := wroteEntry_of_exec hexec
    cases found with
    | none => exact hwrote
    | some detection => exact hwrote

end

abbrev PeerReach (rank : Fin n) : State rank → List Detection → Prop :=
  (peerTables rank).Reach Machine.free

/-- That ids and indices are told apart rightly. -/
structure PeerIndexing (rank : Fin n) : Prop where
  bijective : Set.BijOn (indexToId rank.val) (indexSet n) (peerSet rank)
  inverse : Set.InvOn (idToIndex rank.val) (indexToId rank.val) (indexSet n) (peerSet rank)
  checkTimeStamps : ∀ i, checkedNodeId rank.val i = indexToId rank.val i
  messageShouldDrop : ∀ j, dropStatusIndex rank.val j = idToIndex rank.val j
  send : ∀ j, sendStatusIndex rank.val j = idToIndex rank.val j
  inBounds : ∀ s es, PeerReach rank s es → s.outOfBounds = false
  peer : ∀ s es l t x call j, PeerReach rank s es → PeerTables.step s l = some (t,x) →
    runningCall s l = some call → aboutNode call = some j → j ≠ rank.val →
    j ∈ peerSet rank ∧ ∀ index, index ≠ idToIndex rank.val j → SameAt index s.tables t.tables
  own : ∀ s es l t x, PeerReach rank s es → PeerTables.step s l = some (t,x) →
    runningCall s l = some (.handleMessage (.recovered rank)) →
    t.tables.isAlive = s.tables.isAlive ∧ t.tables.processIsAlive = s.tables.processIsAlive
  others : ∀ s es l t x, PeerReach rank s es → PeerTables.step s l = some (t,x) →
    (runningCall s l).bind aboutNode = none → l ≠ .start → (∀ now, l ≠ .init now) →
    t.tables = s.tables

/-- Whatever is sent, received, handled and detected, a server finds the entry of the peer that
is meant, and changes no other. -/
theorem peer_indexing (rank : Fin n) : PeerIndexing rank where
  bijective := (indexToId_invOn rank).bijOn (indexToId_mapsTo rank) (idToIndex_mapsTo rank)
  inverse := indexToId_invOn rank
  checkTimeStamps _ := rfl
  messageShouldDrop _ := rfl
  send _ := rfl
  inBounds _ _ hr := (reach_peersOk hr).inBounds
  peer s es l t x call j hr hs hcall habout hj := by
    obtain ⟨hindexed,sec,hsec,hwrote⟩ := (reach_peersOk hr).runs hs hcall
    refine ⟨aboutNode_mem hindexed habout hj,fun index hindex => hwrote.sameAt ?_⟩
    intro hwritten
    obtain ⟨j',habout',heq⟩ := hsec.written hwritten
    obtain rfl := Option.some.inj (habout.symm.trans habout')
    exact hindex (heq hj)
  own s es l t x hr hs hcall := by
    obtain ⟨-,sec,hsec,hwrote⟩ := (reach_peersOk hr).runs hs hcall
    rcases hsec.own with hnone | ⟨i,rfl⟩
    · rw [hwrote.unwritten (by simp [hnone])]
      exact ⟨rfl,rfl⟩
    · exact hwrote.liveness
  others s es l t x hr hs hnone hstart hinit := by
    have hok := reach_peersOk hr
    cases hcall : runningCall s l with
    | none =>
      cases peerStep_of_step hok hs with
      | starts => contradiction
      | inits => exact absurd rfl (hinit _)
      | sends | receives | handles | pings => rfl
      | runs u now mayRecover hu => simp [runningCall, hu] at hcall
    | some call =>
      obtain ⟨-,sec,hsec,hwrote⟩ := hok.runs hs hcall
      have habout : aboutNode call = none := by simpa [hcall] using hnone
      exact hwrote.unwritten (fun i hi => by
        obtain ⟨j,hj,-⟩ := hsec.written hi
        rw [habout] at hj
        contradiction)

/-- The lowest server has no index that could pass for its own. -/
example : readAt [true,true] (idToIndex 0 0) = none := rfl

end Algorep.Proofs
