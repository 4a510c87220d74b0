import Algorep.Kit.Network
import Mathlib.Data.List.FinRange

namespace Algorep.Program
open Kit

inductive MessageTag
  | leaderElection
  | consensus
  | repl
  | failureDetection
  | client
deriving DecidableEq, Repr

/-- `Messenger::generateUniqueId`. The clock reading is in whole seconds, as the
cast to `int` leaves it. The node id is taken and not used. -/
def generateUniqueId (_nodeId : Fin n) (wtime : Nat) : Int := wtime

/-- `messageShouldDrop`, with the liveness table read by peer. `onWorld` says the
connection is `MPI_COMM_WORLD`. -/
def messageShouldDrop (processIsAlive : Fin n → Bool) (nodeId otherNodeId : Fin n)
    (onWorld : Bool) (tag : MessageTag) : Bool :=
  !(otherNodeId == nodeId || !onWorld ||
    (processIsAlive otherNodeId || tag == .failureDetection))

/-- The links the world communicator offers one tag under everybody's liveness table. -/
def links (processIsAlive : Fin n → Fin n → Bool) (tag : MessageTag) : Links (Fin n) :=
  fun a b => !messageShouldDrop (processIsAlive a) a b true tag

/-- No node is marked dead anywhere. -/
def noneDead : Fin n → Fin n → Bool := fun _ _ => true

theorem links_noneDead (tag : MessageTag) : links (noneDead (n := n)) tag = allUp := by
  funext a b
  simp [links, messageShouldDrop, noneDead, allUp]

/-- The nodes `Messenger::broadcast` sends to, in order. -/
def broadcastTargets (rank : Fin n) (start stop : Nat) (includeSelf : Bool) : List (Fin n) :=
  (List.finRange n).filter (fun i =>
    decide (start ≤ i.val) && decide (i.val < stop) && (i != rank || includeSelf))

/-- The targets of `broadcast(message, 0, clusterSize, false)`. -/
def others (rank : Fin n) : List (Fin n) := broadcastTargets rank 0 n false

@[simp] theorem mem_others {rank i : Fin n} : i ∈ others rank ↔ i ≠ rank := by
  simp [others, broadcastTargets]

theorem others_nodup (rank : Fin n) : (others rank).Nodup :=
  (List.nodup_finRange n).filter _

end Algorep.Program
