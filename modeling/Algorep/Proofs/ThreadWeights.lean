import Algorep.Kit.Potential
import Algorep.Proofs.ElectionSteps
import Mathlib.Algebra.Order.BigOperators.Group.List
import Mathlib.Algebra.Order.Group.Nat

namespace Algorep.Proofs
open Kit Program Program.Server

/-! A weight for every thread of a server, and what a section does to their sum. -/

/-- What the threads of a server weigh. -/
def weigh (w : ThreadId → List (Op n) → Nat) (node : Server.Node n) : Nat :=
  ((threadsOf node).map (fun t => w t (node.threads t))).sum

theorem threadsOf_nodup (node : Server.Node n) : (threadsOf node).Nodup := by
  have hspawned : ((List.range node.spawned).map ThreadId.spawned).Nodup :=
    List.nodup_range.map (fun a b h => by simpa using h)
  simp [threadsOf, hspawned]

variable {w : ThreadId → List (Op n) → Nat} {node : Server.Node n}

theorem weigh_congr {x y : Server.Node n} (hthreads : x.threads = y.threads)
    (hspawned : x.spawned = y.spawned) : weigh w x = weigh w y := by
  unfold weigh threadsOf
  rw [hthreads, hspawned]

theorem weigh_le {w' : ThreadId → List (Op n) → Nat} (h : ∀ t ops, w' t ops ≤ w t ops)
    (node : Server.Node n) : weigh w' node ≤ weigh w node :=
  List.sum_le_sum (fun t _ => h t (node.threads t))

theorem weigh_setThread (ht : t ∈ threadsOf node) (ops : List (Op n)) :
    weigh w (node.setThread t ops) + w t (node.threads t) = weigh w node + w t ops := by
  have hchange := sum_map_change (fun u => w u (node.threads u))
    (fun u => w u ((node.setThread t ops).threads u)) (threadsOf_nodup node) ht
    (fun u hu => by rw [Server.Node.setThread_other _ _ _ hu])
  rw [Server.Node.setThread_self] at hchange
  exact hchange

/-- A thread that weighs nothing may have anything to do. -/
theorem weigh_weightless (ht : t ∈ threadsOf node) (hnone : ∀ ops, w t ops = 0)
    (ops : List (Op n)) : weigh w (node.setThread t ops) = weigh w node := by
  have hset := weigh_setThread (w := w) ht ops
  rwa [hnone, hnone, Nat.add_zero, Nat.add_zero] at hset

theorem weigh_spawn (node : Server.Node n) (ops : List (Op n)) :
    weigh w (node.spawn ops) = weigh w node + w (.spawned node.spawned) ops := by
  have hthreads : ∀ u ∈ threadsOf node,
      w u ((node.spawn ops).threads u) = w u (node.threads u) := by
    intro u hu
    have hne : u ≠ .spawned node.spawned := by
      rintro rfl
      simp [threadsOf] at hu
    have hother : (node.spawn ops).threads u = node.threads u :=
      Server.Node.setThread_other _ _ _ hne
    rw [hother]
  have hself : (node.spawn ops).threads (.spawned node.spawned) = ops :=
    Server.Node.setThread_self _ _ _
  have hmore : threadsOf (node.spawn ops) = threadsOf node ++ [.spawned node.spawned] := by
    simp [threadsOf, Server.Node.spawn, List.range_succ]
  unfold weigh
  rw [hmore, List.map_append, List.sum_append, List.map_congr_left hthreads]
  simp [hself]

/-- What the thread that a section detaches weighs. -/
def weighNew (w : ThreadId → List (Op n) → Nat) (node : Server.Node n)
    (ops : Option (List (Op n))) : Nat :=
  (ops.map (w (.spawned node.spawned))).getD 0

/-- A section changes the weight of its own thread, and may detach another one. -/
theorem weigh_run (hu : Unborn node) (ht : node.threads t = op::rest)
    (he : exec rank node timedOut now op = some (ops,out)) :
    weigh w (out.state.setThread t (ops ++ rest)) + w t (op::rest) =
      weigh w node + w t (ops ++ rest) + weighNew w node (spawns rank node op) := by
  have hran := exec_ran he
  have hmem : t ∈ threadsOf node := mem_threadsOf hu (ht ▸ List.mem_cons_self)
  have hstate : ∃ x : Server.Node n, out.state.threads = x.threads ∧ out.state.spawned = x.spawned ∧
      weigh w x = weigh w node + weighNew w node (spawns rank node op) ∧
      x.threads t = node.threads t ∧ t ∈ threadsOf x := by
    have hthreads := hran.threads
    have hspawned := hran.spawned
    cases hs : spawns rank node op with
    | none =>
      rw [hs] at hthreads hspawned
      exact ⟨node,hthreads,hspawned,rfl,rfl,hmem⟩
    | some new =>
      rw [hs] at hthreads hspawned
      have hne : t ≠ .spawned node.spawned := by
        rintro rfl
        rw [hu _ (Nat.le_refl _)] at ht
        contradiction
      refine ⟨node.spawn new,hthreads,hspawned,weigh_spawn node new,
        Server.Node.setThread_other _ _ _ hne,?_⟩
      simp only [threadsOf, Server.Node.spawn, List.range_succ] at hmem ⊢
      simp only [List.map_append, List.mem_cons, List.mem_append] at hmem ⊢
      tauto
  obtain ⟨x,hthreads,hspawned,hweight,hsame,hx⟩ := hstate
  have hset := weigh_setThread (w := w) hx (ops ++ rest)
  have hcongr : weigh w (out.state.setThread t (ops ++ rest)) =
      weigh w (x.setThread t (ops ++ rest)) := by
    apply weigh_congr
    · simp only [Server.Node.setThread, hthreads]
    · exact hspawned
  rw [hsame, ht] at hset
  omega

end Algorep.Proofs
