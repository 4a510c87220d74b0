import Algorep.Program.Consensus
import Mathlib.Data.Fintype.Card
import Mathlib.Data.Finset.Card

namespace Algorep.Proofs
open Program Program.Consensus

/-- A round of `p` whose promise check passes with the responders `R`. The
responders are among the nodes the PREPARE was broadcast to, and each is counted once. -/
def PromiseQuorum (n : Nat) (p : Fin n) (R : Finset (Fin n)) : Prop :=
  (∀ i ∈ R, i ∈ others p) ∧
    ∀ context : Context, context.promiseCount = R.card → receivePromises n context = true

def AcceptQuorum (n : Nat) (q : Fin n) (R : Finset (Fin n)) : Prop :=
  (∀ i ∈ R, i ∈ others q) ∧
    ∀ context : Context, context.acceptCount = R.card → receiveAccepts n context = true

/-- Any promise quorum of one proposer meets any accept quorum of another, each
proposer counted with its responders. -/
def QuorumsMeet (n : Nat) : Prop :=
  ∀ p q : Fin n, p ≠ q → ∀ R₁ R₂, PromiseQuorum n p R₁ → AcceptQuorum n q R₂ →
    (insert p R₁ ∩ insert q R₂).Nonempty

/-- Responders that pass a check on their number: all of them are others, and they are
half of the others, rounded down. -/
theorem responders_iff {p : Fin n} {R : Finset (Fin n)} {passes : Context → Bool}
    {count : Context → Nat}
    (hpasses : ∀ context, passes context = true ↔ (n - 1) / 2 ≤ count context)
    (hcount : ∃ context, count context = R.card) :
    ((∀ i ∈ R, i ∈ others p) ∧ ∀ context, count context = R.card → passes context = true) ↔
      p ∉ R ∧ (n - 1) / 2 ≤ R.card := by
  constructor
  · rintro ⟨ho,hc⟩
    obtain ⟨context,he⟩ := hcount
    refine ⟨fun hp => mem_others.mp (ho p hp) rfl,?_⟩
    rw [← he, ← hpasses]
    exact hc context he
  · rintro ⟨hp,hc⟩
    refine ⟨fun i hi => mem_others.mpr (fun he => hp (he ▸ hi)),?_⟩
    intro context he
    rw [hpasses, he]
    exact hc

theorem promiseQuorum_iff : PromiseQuorum n p R ↔ p ∉ R ∧ (n - 1) / 2 ≤ R.card :=
  responders_iff (by simp [receivePromises]) ⟨{ promiseCount := R.card },rfl⟩

theorem acceptQuorum_iff : AcceptQuorum n q R ↔ q ∉ R ∧ (n - 1) / 2 ≤ R.card :=
  responders_iff (by simp [receiveAccepts]) ⟨{ acceptCount := R.card },rfl⟩

/-- An odd cluster: the proposer and half of the others, rounded down, are a majority. -/
theorem odd_meet (hn : n % 2 = 1) : QuorumsMeet n := by
  intro p q _ R₁ R₂ h₁ h₂
  obtain ⟨hp,hc₁⟩ := promiseQuorum_iff.mp h₁
  obtain ⟨hq,hc₂⟩ := acceptQuorum_iff.mp h₂
  apply Finset.inter_nonempty_of_card_lt_card_add_card (Finset.subset_univ _)
    (Finset.subset_univ _)
  rw [Finset.card_insert_of_notMem hp, Finset.card_insert_of_notMem hq, Finset.card_univ,
    Fintype.card_fin]
  omega

/-- An even cluster splits into two halves, each of them a quorum around its own proposer. -/
theorem even_split (hn : n % 2 = 0) (hpos : 2 ≤ n) : ¬ QuorumsMeet n := by
  intro hmeet
  obtain ⟨A,_,hA⟩ := Finset.exists_subset_card_eq (s := (Finset.univ : Finset (Fin n)))
    (n := n / 2) (by rw [Finset.card_univ, Fintype.card_fin]; omega)
  have hAc : Aᶜ.card = n / 2 := by
    rw [Finset.card_compl, Fintype.card_fin, hA]
    omega
  obtain ⟨p,hp⟩ := Finset.card_pos.mp (show 0 < A.card by omega)
  obtain ⟨q,hq⟩ := Finset.card_pos.mp (show 0 < Aᶜ.card by omega)
  have hne : p ≠ q := by
    intro he
    subst he
    exact Finset.mem_compl.mp hq hp
  have h₁ : PromiseQuorum n p (A.erase p) := by
    refine promiseQuorum_iff.mpr ⟨Finset.notMem_erase p A,?_⟩
    rw [Finset.card_erase_of_mem hp, hA]
    omega
  have h₂ : AcceptQuorum n q (Aᶜ.erase q) := by
    refine acceptQuorum_iff.mpr ⟨Finset.notMem_erase q Aᶜ,?_⟩
    rw [Finset.card_erase_of_mem hq, hAc]
    omega
  obtain ⟨x,hx⟩ := hmeet p q hne _ _ h₁ h₂
  rw [Finset.insert_erase hp, Finset.insert_erase hq, Finset.inter_compl] at hx
  simp at hx

/-- The thresholds give intersecting quorums exactly in clusters of odd size. -/
theorem quorums_meet_iff_odd (hn : 2 ≤ n) : QuorumsMeet n ↔ n % 2 = 1 := by
  constructor
  · intro hmeet
    by_contra hodd
    exact even_split (by omega) hn hmeet
  · exact odd_meet

theorem quorums_meet_iff_odd_five : QuorumsMeet 5 ↔ 5 % 2 = 1 :=
  quorums_meet_iff_odd (by decide)

/-- Four nodes: node 0 with node 1 and node 2 with node 3 both pass their checks. -/
theorem four_nodes_split : ¬ QuorumsMeet 4 := by
  intro hmeet
  have h₁ : PromiseQuorum 4 0 {1} := promiseQuorum_iff.mpr ⟨by decide,by decide⟩
  have h₂ : AcceptQuorum 4 2 {3} := acceptQuorum_iff.mpr ⟨by decide,by decide⟩
  exact absurd (hmeet 0 2 (by decide) _ _ h₁ h₂) (by decide)

end Algorep.Proofs
