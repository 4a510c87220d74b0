import Algorep.Proofs.PeerIndexing
import Algorep.Proofs.HandledFailures
import Mathlib.Logic.Relation
import Mathlib.Order.Fin.Basic
import Mathlib.Data.List.Sort

namespace Algorep.Proofs
open Kit Program Program.Server
open PeerTables (Tables Section Detection indexToId idToIndex)

/-! Elsewhere the tables of a server are read by peer. They are these vectors: the entry of a
peer is the one at its index. -/

/-- The peers of a server in the order of their indices. -/
theorem others_eq (p : Fin (n + 1)) : others p = (List.finRange n).map p.succAbove := by
  apply List.SortedLT.eq_of_mem_iff
  · exact ((List.sortedLT_finRange (n + 1)).pairwise.filter _).sortedLT
  · refine ((List.sortedLT_finRange n).pairwise.map _ ?_).sortedLT
    exact fun _ _ h => p.strictMono_succAbove h
  · intro j
    rw [mem_others, List.mem_map]
    simp only [List.mem_finRange, true_and]
    exact Fin.exists_succAbove_eq_iff.symm

theorem others_length (rank : Fin n) : (others rank).length = n - 1 := by
  cases n with
  | zero => exact rank.elim0
  | succ n => rw [others_eq, List.length_map, List.length_finRange, Nat.add_sub_cancel]

theorem idToIndex_succAbove (p : Fin (n + 1)) (i : Fin n) :
    idToIndex p.val (p.succAbove i).val = i.val := by
  have hid : indexToId p.val i.val = ((p.succAbove i).val : Int) := by
    unfold indexToId Fin.succAbove
    simp only [Fin.lt_def, Fin.val_castSucc]
    split <;> split <;> simp <;> omega
  rw [← hid, idToIndex_indexToId]

/-- The index of a peer is its place among the peers. -/
theorem idxOf_others {rank j : Fin n} (h : j ≠ rank) :
    ((others rank).idxOf j : Int) = idToIndex rank.val j.val := by
  cases n with
  | zero => exact rank.elim0
  | succ n =>
    obtain ⟨i,rfl⟩ := Fin.exists_succAbove_eq h
    have hlt : i.val < (others rank).length := by
      rw [others_length]
      exact i.isLt
    have hget : (others rank)[i.val] = rank.succAbove i := by simp [others_eq]
    rw [idToIndex_succAbove, ← hget, (others_nodup rank).idxOf_getElem]

theorem readAt_others {rank j : Fin n} (f : Fin n → α) (h : j ≠ rank) :
    readAt ((others rank).map f) (idToIndex rank.val j.val) = some (f j) := by
  rw [← idxOf_others h, readAt, if_pos (Int.natCast_nonneg _), Int.toNat_natCast,
    List.getElem?_map, List.getElem?_idxOf (mem_others.mpr h)]
  rfl

theorem writeAt_others {rank j : Fin n} (f : Fin n → α) (h : j ≠ rank) (a : α) :
    writeAt ((others rank).map f) (idToIndex rank.val j.val) a =
      some ((others rank).map (Function.update f j a)) := by
  have hmem : j ∈ others rank := mem_others.mpr h
  have hbound : InBounds ((others rank).map f) ((others rank).idxOf j) := by
    refine ⟨Int.natCast_nonneg _,?_⟩
    rw [List.length_map]
    exact Int.ofNat_lt.mpr (List.idxOf_lt_length_of_mem hmem)
  rw [← idxOf_others h, writeAt_of_inBounds hbound, Int.toNat_natCast,
    (others_nodup rank).map_update, if_pos hmem]

/-- The vectors of a server that says this of each peer. -/
def tablesAt (rank : Fin n) (timeStamps : Fin n → Int) (isAlive processIsAlive : Fin n → Bool) :
    Tables where
  timeStamps := (others rank).map timeStamps
  isAlive := (others rank).map isAlive
  processIsAlive := (others rank).map processIsAlive

def tablesOf (rank : Fin n) (node : Heartbeat.Node n) : Tables :=
  tablesAt rank node.timeStamps node.server.isAlive node.server.processIsAlive

theorem messageShouldDrop_others (processIsAlive : Fin n → Bool) (rank j : Fin n)
    (onWorld : Bool) (tag : MessageTag) :
    PeerTables.messageShouldDrop ((others rank).map processIsAlive) rank.val j.val onWorld tag =
      some (Program.messageShouldDrop processIsAlive rank j onWorld tag) := by
  rw [messageShouldDrop_eq]
  split
  · rename_i h
    rcases h with h | h
    · have hj : j = rank := Fin.ext (Int.ofNat.inj h)
      simp [Program.messageShouldDrop, hj]
    · simp [Program.messageShouldDrop, h]
  · rename_i h
    have hj : j ≠ rank := fun he => h (.inl (by rw [he]))
    have hworld : onWorld = true := by simpa using fun he => h (.inr he)
    rw [readAt_others processIsAlive hj]
    simp [Program.messageShouldDrop, hj, hworld]

theorem setIsAlive_tablesAt {rank j : Fin n} (h : j ≠ rank) (timeStamps : Fin n → Int)
    (isAlive processIsAlive : Fin n → Bool) (value : Bool) :
    PeerTables.setIsAlive (tablesAt rank timeStamps isAlive processIsAlive)
        (idToIndex rank.val j.val) value =
      some (tablesAt rank timeStamps (Function.update isAlive j value) processIsAlive) := by
  rw [PeerTables.setIsAlive, tablesAt, writeAt_others isAlive h]
  rfl

theorem setNodeStatus_tablesAt {rank j : Fin n} (h : j ≠ rank) (timeStamps : Fin n → Int)
    (isAlive processIsAlive : Fin n → Bool) (value : Bool) :
    PeerTables.setNodeStatus (tablesAt rank timeStamps isAlive processIsAlive)
        (idToIndex rank.val j.val) value =
      some (tablesAt rank timeStamps isAlive (Function.update processIsAlive j value)) := by
  rw [PeerTables.setNodeStatus, tablesAt, writeAt_others processIsAlive h]
  rfl

theorem setTimeStamp_tablesAt {rank j : Fin n} (h : j ≠ rank) (timeStamps : Fin n → Int)
    (isAlive processIsAlive : Fin n → Bool) (now : Int) :
    PeerTables.setTimeStamp (tablesAt rank timeStamps isAlive processIsAlive)
        (idToIndex rank.val j.val) now =
      some (tablesAt rank (Function.update timeStamps j now) isAlive processIsAlive) := by
  rw [PeerTables.setTimeStamp, tablesAt, writeAt_others timeStamps h]
  rfl

def mayRecover (rank : Fin n) (node : Server.Node n) : Bool :=
  node.curRecoveryId == -1 && node.leaderNodeId == some rank

/-- What a detection does to the server. -/
def withDetected (node : Heartbeat.Node n) (j : Fin n) : Option Detection → Heartbeat.Node n
  | some (.failure _ _) => { node with server := node.server.spawn (handleNodeFailure j) }
  | some (.recovery _ _) =>
    { node with server := node.server.spawn (handleNodeRecovery j node.server.spawned) }
  | none => node

theorem readAt_timeStamps {rank j : Fin n} (h : j ≠ rank) (node : Heartbeat.Node n) :
    readAt (tablesOf rank node).timeStamps (idToIndex rank.val j.val) =
      some (node.timeStamps j) :=
  readAt_others node.timeStamps h

theorem readAt_isAlive {rank j : Fin n} (h : j ≠ rank) (node : Heartbeat.Node n) :
    readAt (tablesOf rank node).isAlive (idToIndex rank.val j.val) =
      some (node.server.isAlive j) :=
  readAt_others node.server.isAlive h

/-- A round of `checkTimeStamps` decides alike on the vectors. -/
theorem checkTimeStamp_tablesOf {rank j : Fin n} (h : j ≠ rank) (node : Heartbeat.Node n)
    (cur : Int) : ∃ found, PeerTables.checkTimeStamp rank.val (idToIndex rank.val j.val)
        (tablesOf rank node) cur (mayRecover rank node.server) = some found ∧
      Heartbeat.checkTimeStamp rank node j cur = withDetected node j found := by
  have hread : PeerTables.checkTimeStamp rank.val (idToIndex rank.val j.val) (tablesOf rank node)
      cur (mayRecover rank node.server) =
      if node.server.isAlive j = true ∧
        Heartbeat.elapsed node j cur > Heartbeat.timeoutDuration then
          some (some (.failure (idToIndex rank.val j.val)
            (PeerTables.checkedNodeId rank.val (idToIndex rank.val j.val))))
      else some (if node.server.isAlive j = false ∧
        Heartbeat.elapsed node j cur < Heartbeat.timeoutDuration ∧
          mayRecover rank node.server = true then
            some (.recovery (idToIndex rank.val j.val)
              (PeerTables.checkedNodeId rank.val (idToIndex rank.val j.val)))
      else none) := by
    simp only [PeerTables.checkTimeStamp, readAt_timeStamps h, readAt_isAlive h,
      Option.bind_some, Option.map_some]
    rfl
  rw [hread]
  unfold Heartbeat.checkTimeStamp
  split
  · exact ⟨_,rfl,rfl⟩
  · by_cases hheard : node.server.isAlive j = false ∧
        Heartbeat.elapsed node j cur < Heartbeat.timeoutDuration
    · rw [if_pos hheard]
      by_cases hfree : node.server.curRecoveryId = -1 ∧ node.server.leaderNodeId = some rank
      · rw [if_pos hfree, if_pos ⟨hheard.1,hheard.2,by simp [mayRecover, hfree]⟩]
        exact ⟨_,rfl,rfl⟩
      · rw [if_neg hfree, if_neg fun he => hfree (by simpa [mayRecover] using he.2.2)]
        exact ⟨_,rfl,rfl⟩
    · rw [if_neg hheard, if_neg fun he => hheard ⟨he.1,he.2.1⟩]
      exact ⟨_,rfl,rfl⟩

/-- `start` and `init` leave the tables that a server begins with. -/
theorem tablesOf_start (elected : Option (Fin n)) (rank : Fin n) :
    (PeerTables.start n {}).bind (PeerTables.init n (fun _ => 0)) =
      some (tablesOf rank ((Heartbeat.process elected).start rank)) := by
  have hfill : ∀ {α : Type} (a : α),
      (List.range (n - 1)).map (fun _ => a) = (others rank).map (fun _ => a) := by
    intro α a
    rw [List.map_const', List.map_const', List.length_range, others_length]
  rw [start_eq, Option.bind_some, init_eq, hfill, hfill]
  rfl

/-! Nowhere does a server come to write an entry for itself. -/

/-- STATE and STATE_UPDATED, which a leader and the peer it recovers exchange. -/
def recovering : Server.Message n → Bool
  | .state _ _ _ | .stateUpdated _ _ => true
  | _ => false

/-- The node whose entries a section writes, or leads to writing. -/
def entryOf : Op n → Option (Fin n)
  | .handleMessage nodeId message | .send nodeId message =>
    if recovering message then some nodeId else none
  | .setIsAlive nodeId _ | .setNodeStatus nodeId _ _ => some nodeId
  | .startRecovery nodeId _ | .readState nodeId _ _ | .updateChecked nodeId _ _ => some nodeId
  | _ => none

def PeersOnly (rank : Fin n) (node : Server.Node n) : Prop :=
  ∀ t, ∀ op ∈ node.threads t, entryOf op ≠ some rank

/-- Nobody recovers itself. -/
def BetweenPeers (src dst : Fin n) (m : Server.Message n) : Prop :=
  recovering m = true → src ≠ dst

theorem enableComm_entryOf {rank nodeId : Fin n} (h : nodeId ≠ rank)
    (hx : x ∈ enableComm nodeId answers) : entryOf x ≠ some rank := by
  rcases mem_enableComm hx with rfl | rfl
  · exact fun he => h (Option.some.inj he)
  · exact fun he => h (Option.some.inj he)

theorem broadcastElection_entryOf (hx : x ∈ broadcastElection rank) : entryOf x = none := by
  rcases mem_broadcastElection hx with rfl | ⟨j,rfl⟩
  · rfl
  · rfl

theorem exec_entryOf {node : Server.Node n}
    (h : exec rank node timedOut now op = some (ops,out)) (hop : entryOf op ≠ some rank) :
    ∀ x ∈ ops, entryOf x ≠ some rank := by
  intro x hx
  cases exec_continues h x hx with
  | answered src hx | again hl hx => simp [broadcastElection_entryOf hx]
  | declared hl hx =>
    rcases List.mem_append.mp hx with hx | hx
    · rcases mem_declareVictory hx with ⟨j,rfl⟩ | rfl
      · simp [entryOf, recovering]
      · simp [entryOf]
    · rw [List.mem_singleton.mp hx]
      simp [entryOf]
  | installed | updated | read => exact hop
  | recovered src nodeId _ =>
    simp only [exec, handleMessage, Option.some.injEq, Prod.mk.injEq] at h
    rw [← h.1] at hx
    split at hx
    · contradiction
    · rename_i hother
      exact enableComm_entryOf (fun he => hother he.symm) hx
  | recovering dst id k hx =>
    rcases mem_pausedRecovery hx with rfl | rfl | rfl | rfl
    · simp [entryOf]
    · exact hop
    · simp [entryOf]
    · simp [entryOf]
  | checked src b k hx =>
    rcases mem_updateChecked hx with ⟨j,-,rfl⟩ | hx | rfl
    · simp [entryOf, recovering]
    · exact enableComm_entryOf (fun he => hop (congrArg some he)) hx
    · simp [entryOf, recovering]

theorem newThread_entryOf {node : Server.Node n} (ha : Server.act rank node a = some out)
    (hn : newThread rank node a = some ops) : ∀ x ∈ ops, entryOf x ≠ some rank := by
  rcases newThread_cases hn with rfl | rfl | ⟨j,rfl,rfl⟩ | ⟨j,rfl,rfl⟩
  · simp [aliveWait, entryOf]
  · intro x hx
    rcases List.mem_append.mp hx with hx | hx
    · simp [broadcastElection_entryOf hx]
    · rcases List.mem_pair.mp hx with rfl | rfl
      · simp [entryOf]
      · simp [entryOf]
  · simp only [Server.act, detectFailure, Option.ite_none_right_eq_some] at ha
    simp [handleNodeFailure, entryOf, ha.1.1]
  · simp only [Server.act, detectRecovery, Option.ite_none_right_eq_some] at ha
    simp [handleNodeRecovery, entryOf, ha.1.1]

section
variable {n : Nat} {rank : Fin n} {node x : Server.Node n} {a : Server.Action n}
  {out : Server.Result n}

theorem PeersOnly.act (h : PeersOnly rank node) (ha : Server.act rank node a = some out) :
    PeersOnly rank out.state := by
  intro t op hop
  have hthread := (turned_of_turns (turns_of_act ha)).thread t
  generalize out.state.threads t = ops at hthread hop
  cases hthread with
  | same => exact h t op hop
  | next timedOut now op' rest ops out' ha' ht he =>
    rcases List.mem_append.mp hop with hop | hop
    · exact exec_entryOf he (h t op' (ht ▸ List.mem_cons_self)) op hop
    · exact h t op (ht ▸ List.mem_cons_of_mem _ hop)
  | first ops _ _ hn => exact newThread_entryOf ha hn op hop

theorem PeersOnly.sends (h : PeersOnly rank node) (ha : Server.act rank node a = some out)
    (hm : out.send = some (dst,m)) : BetweenPeers rank dst m := by
  intro hrec
  rcases (turned_of_turns (turns_of_act ha)).send dst m hm with htag | hsent
  · cases m with
    | state | stateUpdated => contradiction
    | _ => contradiction
  · obtain ⟨op,hop,hs⟩ := Option.bind_eq_some_iff.mp hsent
    obtain ⟨t,timedOut,now,rfl,hmem⟩ := sectionAt_run hop
    have hentry := h t op hmem
    cases op with
    | handleMessage src m' =>
      cases m' with
      | election =>
        obtain ⟨-,he⟩ := Option.ite_none_left_eq_some.mp hs
        cases he
        contradiction
      | _ => contradiction
    | send dst' m' =>
      obtain ⟨-,he⟩ := Option.ite_none_left_eq_some.mp hs
      cases he
      rw [entryOf, if_pos hrec] at hentry
      exact fun he => hentry (congrArg some he.symm)
    | _ => contradiction

theorem PeersOnly.accept (h : PeersOnly rank node) (hm : BetweenPeers src rank m)
    (ha : Server.accept rank node tag src m = some x) : PeersOnly rank x := by
  intro t op hop
  rcases (taken_of_accept ha).came hop with hop | ⟨rfl,-⟩
  · exact h t op hop
  · rw [entryOf]
    split
    · rename_i hrec
      exact fun he => hm hrec (Option.some.inj he)
    · simp

end

theorem reach_peersOnly {s : Server.Cluster n} (hr : Server.Reach elected Machine.free s es) :
    (∀ i, PeersOnly i (s.nodes i)) ∧ s.Carries BetweenPeers := by
  induction hr with
  | start =>
    refine ⟨fun i t op hop => ?_,fun k a b m hm => ?_⟩
    · cases hop
    · cases hm
  | step _ _ hs ih =>
    apply (LaneProcess.step_of_eq hs).keeps ih
    · exact fun i a out _ ho => ⟨(ih.1 i).act ho,fun dst m hm => (ih.1 i).sends ho hm⟩
    · exact fun k src i m x _ hm hx => (ih.1 i).accept hm hx

/-- Pings go to others too. -/
structure PingsPeers (rank : Fin n) (node : Heartbeat.Node n) : Prop where
  thread : ∀ dst, .send dst ∈ node.pingThread → rank ≠ dst
  pinged : ∀ src, node.pinged = some src → src ≠ rank

def PingBetween (src dst : Fin n) (m : Heartbeat.Message n) : Prop := m = .ping → src ≠ dst

theorem PingsPeers.act {node : Heartbeat.Node n} (h : PingsPeers rank node)
    (ha : Heartbeat.act rank node a = some out) :
    PingsPeers rank out.state ∧ ∀ dst m, out.send = some (dst,m) → PingBetween rank dst m := by
  cases a with
  | pingCheck cur =>
    simp only [Heartbeat.act, Option.some.injEq] at ha
    subst ha
    unfold Heartbeat.pingCheck
    split
    · refine ⟨⟨fun dst hdst => ?_,h.pinged⟩,by simp⟩
      have hother : dst ≠ rank := by simpa [Heartbeat.pingBody] using hdst
      exact hother.symm
    · rename_i j rest ht
      have hpinged : (Heartbeat.checkTimeStamp rank node j cur).pinged = node.pinged := by
        unfold Heartbeat.checkTimeStamp
        split
        · rfl
        · split
          · split <;> rfl
          · rfl
      refine ⟨⟨fun dst hdst => h.thread dst (ht ▸ List.mem_cons_of_mem _ hdst),?_⟩,by simp⟩
      exact fun src hsrc => h.pinged src (hpinged ▸ hsrc)
    · rename_i dst rest ht
      refine ⟨⟨fun k hk => h.thread k (ht ▸ List.mem_cons_of_mem _ hk),h.pinged⟩,?_⟩
      intro k m hm _
      cases hm
      exact h.thread dst (ht ▸ List.mem_cons_self)
  | handlePing now =>
    obtain ⟨src,-,rfl⟩ := Option.map_eq_some_iff.mp ha
    exact ⟨⟨h.thread,by simp⟩,by simp⟩
  | server a now =>
    simp only [Heartbeat.act, Heartbeat.serve] at ha
    split at ha
    · contradiction
    · contradiction
    · obtain ⟨sout,-,rfl⟩ := Option.map_eq_some_iff.mp ha
      refine ⟨⟨h.thread,h.pinged⟩,?_⟩
      rintro dst m hm rfl
      obtain ⟨p,-,he⟩ := Option.map_eq_some_iff.mp hm
      cases he

theorem PingsPeers.accept {node : Heartbeat.Node n} (h : PingsPeers rank node)
    (hm : PingBetween src rank m) (ha : Heartbeat.accept rank node tag src m = some x) :
    PingsPeers rank x := by
  cases m with
  | ping =>
    obtain ⟨-,he⟩ := Option.ite_none_right_eq_some.mp ha
    cases he
    refine ⟨h.thread,fun k hk => ?_⟩
    cases hk
    exact hm rfl
  | server m =>
    obtain ⟨-,he⟩ := Option.ite_none_left_eq_some.mp ha
    obtain ⟨y,-,rfl⟩ := Option.map_eq_some_iff.mp he
    exact ⟨h.thread,h.pinged⟩

theorem reach_pingsPeers {s : Heartbeat.Cluster n} (hr : Heartbeat.Reach elected s es) :
    (∀ i, PingsPeers i (s.nodes i)) ∧ s.Carries PingBetween := by
  induction hr with
  | start =>
    refine ⟨fun i => ⟨fun dst hdst => ?_,fun src hsrc => ?_⟩,fun k a b m hm => ?_⟩
    · cases hdst
    · cases hsrc
    · cases hm
  | step _ _ hs ih =>
    apply (LaneProcess.step_of_eq hs).keeps ih
    · exact fun i a out _ ho => (ih.1 i).act ho
    · exact fun k src i m x _ hm hx => (ih.1 i).accept hm hx

/-! Runs. -/

/-- The vectors go from one state to another by sections that find their entries. -/
def IndexedRun (rank : Fin n) : Tables → Tables → Prop :=
  Relation.ReflTransGen fun x y => ∃ sec now mayRecover found, Addressed rank sec ∧
    PeerTables.exec rank.val x now mayRecover sec = some (y,found)

theorem index_mem {rank j : Fin n} (h : j ≠ rank) :
    idToIndex rank.val j.val ∈ indexSet n :=
  idToIndex_mapsTo rank (peer_mem ⟨j,h⟩)

/-- The writes of a server's section, made at the index of the peer. -/
theorem indexedRun_section {rank : Fin n} {node : Server.Node n} {op : Op n}
    (h : entryOf op ≠ some rank) (timeStamps : Fin n → Int) :
    IndexedRun rank (tablesAt rank timeStamps node.isAlive node.processIsAlive)
      (tablesAt rank timeStamps (isAliveAfter node op) (statusAfter node op)) := by
  cases op with
  | setIsAlive j value =>
    have hj : j ≠ rank := fun he => h (congrArg some he)
    refine .single ⟨.setIsAlive (idToIndex rank.val j.val) value,0,false,none,index_mem hj,?_⟩
    rw [PeerTables.exec, setIsAlive_tablesAt hj]
    rfl
  | setNodeStatus j value answers =>
    have hj : j ≠ rank := fun he => h (congrArg some he)
    refine .single ⟨.setNodeStatus (idToIndex rank.val j.val) value,0,false,none,index_mem hj,?_⟩
    rw [PeerTables.exec, setNodeStatus_tablesAt hj]
    rfl
  | _ => exact .refl

/-- The loop of `handleRecovered` at the recovered node itself, when it is through with `js`. -/
theorem indexedRun_stamps (rank : Fin n) (timeStamps now : Fin n → Int)
    (isAlive processIsAlive : Fin n → Bool) {js : List (Fin n)} (hjs : ∀ j ∈ js, j ≠ rank) :
    IndexedRun rank (tablesAt rank timeStamps isAlive processIsAlive)
      (tablesAt rank (fun j => if j ∈ js then now j else timeStamps j) isAlive processIsAlive) := by
  induction js with
  | nil =>
    have hnone : (fun j => if j ∈ [] then now j else timeStamps j) = timeStamps := by
      funext j
      exact if_neg List.not_mem_nil
    rw [hnone]
    exact .refl
  | cons j js ih =>
    have hj : j ≠ rank := hjs j List.mem_cons_self
    refine (ih fun k hk => hjs k (List.mem_cons_of_mem _ hk)).tail
      ⟨.setTimeStamp (idToIndex rank.val j.val),now j,false,none,index_mem hj,?_⟩
    have hnext : Function.update (fun k => if k ∈ js then now k else timeStamps k) j (now j) =
        fun k => if k ∈ j::js then now k else timeStamps k := by
      funext k
      by_cases hk : k = j
      · subst hk
        simp
      · simp [hk]
    rw [PeerTables.exec, setTimeStamp_tablesAt hj, hnext]
    rfl

theorem indexedRun_reset (rank : Fin n) (timeStamps now : Fin n → Int)
    (isAlive processIsAlive : Fin n → Bool) :
    IndexedRun rank (tablesAt rank timeStamps isAlive processIsAlive)
      (tablesAt rank now isAlive processIsAlive) := by
  have hall := indexedRun_stamps rank timeStamps now isAlive processIsAlive
    fun j (hj : j ∈ others rank) => mem_others.mp hj
  have hsame : tablesAt rank (fun j => if j ∈ others rank then now j else timeStamps j) isAlive
      processIsAlive = tablesAt rank now isAlive processIsAlive := by
    rw [tablesAt, tablesAt, List.map_congr_left fun j hj => if_pos hj]
  exact hsame ▸ hall

theorem indexedRun_serve {rank : Fin n} {node : Heartbeat.Node n}
    (hpeers : PeersOnly rank node.server) (ha : Heartbeat.serve rank node a now = some out) :
    IndexedRun rank (tablesOf rank node) (tablesOf rank out.state) := by
  unfold Heartbeat.serve at ha
  split at ha
  · contradiction
  · contradiction
  · obtain ⟨sout,hs,rfl⟩ := Option.map_eq_some_iff.mp ha
    have hturned := turned_of_turns (turns_of_act hs)
    have hwrites : IndexedRun rank (tablesOf rank node)
        (tablesAt rank node.timeStamps sout.state.isAlive sout.state.processIsAlive) := by
      rw [hturned.isAlive, hturned.status]
      cases hop : sectionAt node.server a with
      | none => exact .refl
      | some op =>
        obtain ⟨t,timedOut,now',-,hmem⟩ := sectionAt_run hop
        exact indexedRun_section (hpeers t op hmem) node.timeStamps
    simp only [tablesOf]
    split
    · exact hwrites.trans (indexedRun_reset rank _ now _ _)
    · exact hwrites

theorem checkTimeStamp_tables (rank : Fin n) (node : Heartbeat.Node n) (j : Fin n) (cur : Int) :
    tablesOf rank (Heartbeat.checkTimeStamp rank node j cur) = tablesOf rank node := by
  unfold Heartbeat.checkTimeStamp
  split
  · rfl
  · split
    · split <;> rfl
    · rfl

theorem indexedRun_act {rank : Fin n} {node : Heartbeat.Node n}
    (hpeers : PeersOnly rank node.server) (hpings : PingsPeers rank node)
    (ha : Heartbeat.act rank node a = some out) :
    IndexedRun rank (tablesOf rank node) (tablesOf rank out.state) := by
  cases a with
  | pingCheck cur =>
    simp only [Heartbeat.act, Option.some.injEq] at ha
    subst ha
    unfold Heartbeat.pingCheck
    split
    · exact .refl
    · rename_i j rest ht
      have hsame := checkTimeStamp_tables rank node j cur
      exact hsame ▸ .refl
    · exact .refl
  | handlePing now =>
    obtain ⟨src,hsrc,rfl⟩ := Option.map_eq_some_iff.mp ha
    have hother := hpings.pinged src hsrc
    refine .single ⟨.handlePing src.val,now,false,none,peer_mem ⟨src,hother⟩,?_⟩
    rw [PeerTables.exec, PeerTables.handlePing, tablesOf, setTimeStamp_tablesAt hother]
    rfl
  | server a now => exact indexedRun_serve hpeers ha

theorem accept_tables {node x : Heartbeat.Node n}
    (ha : Heartbeat.accept rank node tag src m = some x) :
    tablesOf rank x = tablesOf rank node := by
  cases m with
  | ping =>
    obtain ⟨-,he⟩ := Option.ite_none_right_eq_some.mp ha
    cases he
    rfl
  | server m =>
    obtain ⟨-,he⟩ := Option.ite_none_left_eq_some.mp ha
    obtain ⟨y,hy,rfl⟩ := Option.map_eq_some_iff.mp he
    cases taken_of_accept hy with
    | kept _ hu _ => simp only [tablesOf, hu.isAlive, hu.status]
    | election | failure => rfl

/-- Whatever the cluster does, the tables of a server are those that its vectors come to,
from what `start` and `init` fill them with, by accesses that all find their entries. -/
theorem reach_indexedRun {s : Heartbeat.Cluster n} (hr : Heartbeat.Reach elected s es)
    (i : Fin n) :
    IndexedRun i (tablesOf i ((Heartbeat.process elected).start i)) (tablesOf i (s.nodes i)) := by
  induction hr with
  | start => exact .refl
  | step hr _ hs ih =>
    obtain ⟨es',hr'⟩ := (heartbeat_projects elected).reach hr
    have hpeers := (reach_peersOnly hr').1
    have hpings := (reach_pingsPeers hr).1
    cases LaneProcess.step_of_eq hs with
    | act j a out ho =>
      by_cases hi : i = j
      · subst hi
        rw [LaneNet.commit_self]
        exact ih.trans (indexedRun_act (hpeers i) (hpings i) ho)
      · rw [LaneNet.commit_other _ _ _ hi]
        exact ih
    | receive k src dst m rest x hc hx =>
      by_cases hi : i = dst
      · subst hi
        rw [LaneNet.take_self, accept_tables hx]
        exact ih
      · rw [LaneNet.take_other _ _ _ _ _ hi]
        exact ih

end Algorep.Proofs
