import Algorep.Proofs.LeaderSteps

namespace Algorep.Proofs
open Kit Program Program.Server

/-- The cluster while `L` is its only leader. -/
structure Steady (L : Fin n) (s : Server.Cluster n) : Prop where
  leader : LeaderOk L (s.nodes L)
  followers : ∀ i, i ≠ L → FollowerOk L (Spent (s.nodes L)) i (s.nodes i)
  travels : s.Carries (Travels L (Spent (s.nodes L)))
  lanes : s.InLane Message.tag

theorem start_steady (L : Fin n) : Steady L (process (some L)).network.start := by
  have hruns : ∀ (R : ThreadId → Op n → Prop) (i : Fin n),
      RunsOnly R (initialNode (some L) i) := by
    intro R i t op hop
    simp [initialNode] at hop
  refine ⟨⟨rfl,hruns _ L,by simp [process, LaneProcess.network, initialNode],?_,fun _ _ => rfl,
    fun _ => rfl,fun hn => absurd rfl hn,trivial⟩,?_,?_,?_⟩
  · intro k
    exact ⟨false,.failing [] (by simp),by simp [process, LaneProcess.network, initialNode]⟩
  · intro i hi
    exact ⟨rfl,rfl,hruns _ i,by simp [process, LaneProcess.network, initialNode],rfl⟩
  · intro k a b m hm
    simp [process, LaneProcess.network] at hm
  · intro k a b m hm
    simp [process, LaneProcess.network] at hm

theorem step_steady {s : Server.Cluster n} (hs : Steady L s) (hg : fixedLeader L l = true)
    (h : (process (some L)).Step s l t e) : Steady L t := by
  cases h with
  | act i a out ho =>
    by_cases hi : i = L
    · subst hi
      obtain ⟨hok,hmono,hsends⟩ := leader_moves (leader_acts hs.leader hg ho) hs.leader
      refine ⟨?_,?_,?_,hs.lanes.commit⟩
      · rw [LaneNet.commit_self]
        exact hok
      · intro j hj
        rw [LaneNet.commit_self, LaneNet.commit_other _ _ _ hj]
        exact (hs.followers j hj).mono hmono
      · rw [LaneNet.commit_self]
        exact (hs.travels.mono fun _ _ _ hm => hm.mono hmono).commit hsends
    · have hL : L ≠ i := fun he => hi he.symm
      obtain ⟨hok,hsends⟩ := (follower_acts (hs.followers i hi) hi hg ho).ok (hs.followers i hi) hi
      have hlead : (s.commit Message.tag i out).nodes L = s.nodes L :=
        LaneNet.commit_other _ _ _ hL
      refine ⟨?_,?_,?_,hs.lanes.commit⟩
      · exact hlead ▸ hs.leader
      · intro j hj
        dsimp only [process]
        rw [hlead]
        by_cases hji : j = i
        · subst hji
          rw [LaneNet.commit_self]
          exact hok
        · rw [LaneNet.commit_other _ _ _ hji]
          exact hs.followers j hj
      · dsimp only [process]
        rw [hlead]
        exact hs.travels.commit hsends
  | receive k src dst m rest x hc hx =>
    have hm : Travels L (Spent (s.nodes L)) src dst m :=
      hs.travels k src dst m (hc ▸ List.mem_cons_self)
    have htag : m.tag = k := hs.lanes k src dst m (hc ▸ List.mem_cons_self)
    have ha := accepts_of_accept hx
    by_cases hd : dst = L
    · subst hd
      obtain ⟨hok,hmono⟩ := leader_accepts ha hs.leader hm htag
      refine ⟨?_,?_,?_,hs.lanes.take hc⟩
      · rw [LaneNet.take_self]
        exact hok
      · intro j hj
        rw [LaneNet.take_self, LaneNet.take_other _ _ _ _ _ hj]
        exact (hs.followers j hj).mono hmono
      · rw [LaneNet.take_self]
        exact (hs.travels.mono fun _ _ _ hm => hm.mono hmono).take hc
    · have hL : L ≠ dst := fun he => hd he.symm
      have hlead : (s.take k src dst rest x).nodes L = s.nodes L :=
        LaneNet.take_other _ _ _ _ _ hL
      refine ⟨?_,?_,?_,hs.lanes.take hc⟩
      · exact hlead ▸ hs.leader
      · intro j hj
        rw [hlead]
        by_cases hjd : j = dst
        · subst hjd
          rw [LaneNet.take_self]
          exact follower_accepts ha (hs.followers j hj) hj hm htag
        · rw [LaneNet.take_other _ _ _ _ _ hjd]
          exact hs.followers j hj
      · rw [hlead]
        exact hs.travels.take hc

end Algorep.Proofs
