import Algorep.Proofs.Recorded
import Mathlib.Data.Finset.Card
import Mathlib.Data.Fintype.Card

namespace Algorep.Proofs
open Kit Program Program.Consensus

/-- Nothing is in flight, and no ACCEPTED is being handled. -/
def Quiet (s : Cluster n) : Prop :=
  (∀ a b, s.chan a b = []) ∧ ∀ i, (s.nodes i).resetting = false

instance (s : Cluster n) : Decidable (Quiet s) := inferInstanceAs (Decidable (_ ∧ _))

/-- One of the three broadcasts of a round, seen from a node it is addressed to:
what is asked, what comes back, and what the node is before, once it has answered,
and when the answer is in. -/
structure Exchange (n : Nat) where
  asks : Message → Prop
  before : Node n → Prop
  answer : List Packet → Node n → Prop
  after : Node n → Prop

/-- What every such broadcast has in common. -/
structure Exchange.Lawful (x : Exchange n) : Prop where
  idle : x.before node ∨ (∃ back, x.answer back node) ∨ x.after node → node.thread = .idle
  awake : x.before node ∨ x.after node → node.resetting = false
  serves {packet : Packet} {node : Node n} {rank src : Fin n} {now : Nat} {out : Result n} :
    x.asks packet.message → x.before node → Handles rank node src packet now out →
      x.answer (out.send.map Prod.snd).toList out.state
  closes : x.answer (packet::back) node → back = [] ∧ x.after node
  resets : x.answer [] node → node.resetting = true ∧
    x.after { node with context := {}, resetting := false }

/-- How far the exchange with one node is; `out` and `back` are the channels to it
and from it. -/
inductive Leg (x : Exchange n) (unsent : Prop) (out back : List Packet) (node : Node n) :
    Bool → Prop
  | unsent (hu : unsent) (ho : out = []) (hb : back = []) (hn : x.before node) :
      Leg x unsent out back node false
  | asked (packet : Packet) (hu : ¬ unsent) (ho : out = [packet]) (hm : x.asks packet.message)
      (hb : back = []) (hn : x.before node) : Leg x unsent out back node false
  | answered (hu : ¬ unsent) (ho : out = []) (hn : x.answer back node) :
      Leg x unsent out back node false
  | closed (hu : ¬ unsent) (ho : out = []) (hb : back = []) (hn : x.after node) :
      Leg x unsent out back node true

/-- The exchanges of proposer `p` with all others. `rest` are the nodes still to be
asked, `heard` those whose answer is in. -/
structure Round (s : Cluster n) (p : Fin n) (x : Exchange n) (rest : List (Fin n))
    (heard : Finset (Fin n)) : Prop where
  lawful : x.Lawful
  legs : ∀ i, i ≠ p →
    Leg x (i ∈ rest) (s.chan p i) (s.chan i p) (s.nodes i) (decide (i ∈ heard))
  apart : ∀ i j, i ≠ p → j ≠ p → s.chan i j = []
  silent : s.chan p p = []

theorem Round.idle {s : Cluster n} (hr : Round s p x rest heard) (hi : i ≠ p) :
    (s.nodes i).thread = .idle := by
  have hl := hr.legs i hi
  generalize decide (i ∈ heard) = b at hl
  cases hl with
  | unsent _ _ _ hn => exact hr.lawful.idle (.inl hn)
  | asked _ _ _ _ _ hn => exact hr.lawful.idle (.inl hn)
  | answered _ _ hn => exact hr.lawful.idle (.inr (.inl ⟨_,hn⟩))
  | closed _ _ _ hn => exact hr.lawful.idle (.inr (.inr hn))

theorem Leg.congr (hl : Leg x u out back node b) (h : u ↔ u') : Leg x u' out back node b := by
  rwa [← propext h]

/-- A step of the exchange with `i` leaves the exchanges with the others alone. -/
theorem Round.update {s t : Cluster n} (hr : Round s p x rest heard) (hi : i ≠ p)
    (hn : ∀ j, j ≠ i → j ≠ p → t.nodes j = s.nodes j)
    (hc : ∀ a b, ¬ (a = p ∧ b = i) → ¬ (a = i ∧ b = p) → t.chan a b = s.chan a b)
    (hrest : ∀ j, j ≠ i → (j ∈ rest ↔ j ∈ rest')) (hheard : ∀ j, j ≠ i → (j ∈ heard ↔ j ∈ heard'))
    (hleg : Leg x (i ∈ rest') (t.chan p i) (t.chan i p) (t.nodes i) (decide (i ∈ heard'))) :
    Round t p x rest' heard' := by
  refine ⟨hr.lawful,?_,?_,?_⟩
  · intro j hj
    rcases Decidable.em (j = i) with he | hne
    · rw [he]
      exact hleg
    · have h := (hr.legs j hj).congr (hrest j hne)
      rw [hn j hne hj, hc p j (fun h => hne h.2) (fun h => hi h.1.symm),
        hc j p (fun h => hj h.1) (fun h => hne h.1), ← decide_eq_decide.mpr (hheard j hne)]
      exact h
  · intro a b ha hb
    rw [hc a b (fun h => ha h.1) (fun h => hb h.2)]
    exact hr.apart a b ha hb
  · rw [hc p p (fun h => hi h.2.symm) (fun h => hi h.1.symm)]
    exact hr.silent

/-- A step of the proposer that sends nothing leaves all exchanges alone. -/
theorem Round.local {s t : Cluster n} (hr : Round s p x rest heard)
    (hn : ∀ j, j ≠ p → t.nodes j = s.nodes j) (hc : t.chan = s.chan) :
    Round t p x rest heard := by
  refine ⟨hr.lawful,?_,?_,?_⟩
  · intro j hj
    rw [hc, hn j hj]
    exact hr.legs j hj
  · rw [hc]
    exact hr.apart
  · rw [hc]
    exact hr.silent

/-- The proposer asks the next node. -/
theorem Round.send {s : Cluster n} {out : Result n} (hr : Round s p x (dst::rest) heard)
    (hd : dst ≠ p) (hnew : dst ∉ rest) (hs : out.send = some (dst,packet))
    (hm : x.asks packet.message) : Round (s.commit allUp p out) p x rest heard := by
  have hchan : ∀ a b, (s.commit allUp p out).chan a b =
      s.chan a b ++ if a = p ∧ b = dst then [packet] else [] := by
    intro a b
    rw [Net.commit_chan, sentTo_trace, hs]
    by_cases ha : a = p
    · by_cases hb : b = dst
      · simp [ha, hb, allUp]
      · simp [ha, hb, Ne.symm hb]
    · simp [ha]
  refine hr.update hd ?_ ?_ ?_ (fun _ _ => Iff.rfl) ?_
  · intro j _ hj
    exact Net.commit_other s allUp out hj
  · intro a b hab _
    rw [hchan, if_neg hab, List.append_nil]
  · intro j hj
    simp [hj]
  · rw [hchan, hchan, if_pos ⟨rfl,rfl⟩, if_neg (fun h => hd h.1), List.append_nil,
      Net.commit_other s allUp out hd]
    have hl := hr.legs dst hd
    generalize decide (dst ∈ heard) = b at hl ⊢
    cases hl with
    | unsent hu ho hb hn => exact .asked packet hnew (by rw [ho]; rfl) hm hb hn
    | asked _ hu | answered hu | closed hu => exact absurd List.mem_cons_self hu

theorem handle_chan {s : Cluster n} {out : Result n} (ha : Handles dst node src packet now out)
    (q : List Packet) (a b : Fin n) :
    ((s.setChan src dst q).commit allUp dst out).chan a b =
      (if a = src ∧ b = dst then q else s.chan a b) ++
        if a = dst ∧ b = src then (out.send.map Prod.snd).toList else [] := by
  rw [Net.commit_chan, Net.setChan_chan, sentTo_trace]
  congr 1
  by_cases had : a = dst
  · cases hs : out.send with
    | none => simp
    | some r =>
      have hsrc : r.1 = src := handles_send_src ha hs
      by_cases hb : b = src
      · simp [had, hb, hsrc, allUp]
      · simp [had, hb, hsrc, Ne.symm hb]
  · simp [had]

/-- A node asked handles what it is asked. -/
theorem Round.serve {s : Cluster n} {out : Result n} (hr : Round s p x rest heard) (hi : i ≠ p)
    (hc : s.chan p i = packet::q) (ha : Handles i (s.nodes i) p packet now out) :
    Round ((s.setChan p i q).commit allUp i out) p x rest heard := by
  have hchan := handle_chan (s := s) ha q
  refine hr.update hi ?_ ?_ (fun _ _ => Iff.rfl) (fun _ _ => Iff.rfl) ?_
  · intro j hj _
    exact Net.commit_other _ allUp out hj
  · intro a b h1 h2
    rw [hchan, if_neg h1, if_neg h2, List.append_nil]
  · rw [hchan, hchan, if_pos ⟨rfl,rfl⟩, if_neg (fun h => hi h.1.symm), if_neg (fun h => hi h.1),
      if_pos ⟨rfl,rfl⟩, Net.commit_self, List.append_nil]
    have hl := hr.legs i hi
    rw [hc] at hl
    generalize decide (i ∈ heard) = b at hl ⊢
    cases hl with
    | asked packet' hu ho hm hb hn =>
      cases ho
      rw [hb]
      exact .answered hu rfl (hr.lawful.serves hm hn ha)
    | unsent _ ho | answered _ ho | closed _ ho => contradiction

/-- What is in flight to the proposer is the answer of a node not heard yet. -/
theorem Round.answered {s : Cluster n} (hr : Round s p x rest heard) (hi : i ≠ p)
    (hc : s.chan i p = packet::q) : i ∉ heard ∧ i ∉ rest ∧ s.chan p i = [] ∧ q = [] ∧
      x.answer [packet] (s.nodes i) := by
  have hl := hr.legs i hi
  rw [hc] at hl
  generalize hb : decide (i ∈ heard) = b at hl
  cases hl with
  | answered hu ho hn =>
    obtain ⟨rfl,_⟩ := hr.lawful.closes hn
    exact ⟨of_decide_eq_false hb,hu,ho,rfl,hn⟩
  | unsent _ _ hb | asked _ _ _ _ hb | closed _ _ hb => contradiction

/-- The proposer handles an answer, without replying. -/
theorem Round.close {s : Cluster n} {out : Result n} (hr : Round s p x rest heard) (hi : i ≠ p)
    (hc : s.chan i p = packet::q) (ha : Handles p (s.nodes p) i packet now out)
    (hs : out.send = none) :
    Round ((s.setChan i p q).commit allUp p out) p x rest (insert i heard) := by
  have hchan := handle_chan (s := s) ha q
  obtain ⟨_,hu,ho,rfl,hn⟩ := hr.answered hi hc
  refine hr.update hi ?_ ?_ (fun _ _ => Iff.rfl) ?_ ?_
  · intro j _ hj
    exact Net.commit_other _ allUp out hj
  · intro a b h1 h2
    rw [hchan, if_neg h2, if_neg h1, List.append_nil]
  · intro j hj
    simp [hj]
  · rw [hchan, hchan, hs, if_neg (fun h => hi h.1.symm), if_pos ⟨rfl,rfl⟩,
      if_pos ⟨rfl,rfl⟩, if_neg (fun h => hi h.1), Net.commit_other _ allUp out hi, ho,
      decide_eq_true (Finset.mem_insert_self i heard)]
    exact .closed hu rfl rfl (hr.lawful.closes hn).2

/-- A node inside a handler has answered without a reply. -/
theorem Round.busy {s : Cluster n} (hr : Round s p x rest heard) (hi : i ≠ p)
    (hb : (s.nodes i).resetting = true) : i ∉ rest ∧ s.chan p i = [] ∧ s.chan i p = [] ∧
      x.answer [] (s.nodes i) := by
  have hasleep : ¬ (x.before (s.nodes i) ∨ x.after (s.nodes i)) := by
    intro h
    rw [hr.lawful.awake h] at hb
    contradiction
  have hl := hr.legs i hi
  generalize decide (i ∈ heard) = b at hl
  cases hl with
  | answered hu ho hn =>
    cases hback : s.chan i p with
    | nil => exact ⟨hu,ho,rfl,hback ▸ hn⟩
    | cons packet q =>
      rw [hback] at hn
      exact absurd (.inr (hr.lawful.closes hn).2) hasleep
  | unsent _ _ _ hn => exact absurd (.inl hn) hasleep
  | asked _ _ _ _ _ hn => exact absurd (.inl hn) hasleep
  | closed _ _ _ hn => exact absurd (.inr hn) hasleep

/-- A node that has appended an ACCEPTED value resets its context. -/
theorem Round.reset {s : Cluster n} {out : Result n} (hr : Round s p x rest heard) (hi : i ≠ p)
    (hb : (s.nodes i).resetting = true)
    (ho : out.state = { s.nodes i with context := {}, resetting := false })
    (hs : out.send = none) :
    Round (s.commit allUp i out) p x rest (insert i heard) := by
  have hchan := Net.commit_silent s allUp i hs
  obtain ⟨hu,hout,hback,hn⟩ := hr.busy hi hb
  refine hr.update hi ?_ ?_ (fun _ _ => Iff.rfl) ?_ ?_
  · intro j hj _
    exact Net.commit_other s allUp out hj
  · intro a b _ _
    rw [hchan]
  · intro j hj
    simp [hj]
  · rw [hchan, Net.commit_self, ho, decide_eq_true (Finset.mem_insert_self i heard)]
    exact .closed hu hout hback (hr.lawful.resets hn).2

/-- Once all are asked and nothing is on its way, every node has been heard. -/
theorem Round.complete {s : Cluster n} (hr : Round s p x [] heard) (hq : Quiet s) (hi : i ≠ p) :
    i ∈ heard ∧ x.after (s.nodes i) := by
  have hl := hr.legs i hi
  generalize hb : decide (i ∈ heard) = b at hl
  cases hl with
  | closed _ _ _ hn => exact ⟨of_decide_eq_true hb,hn⟩
  | unsent hu => contradiction
  | asked packet _ ho =>
    rw [hq.1] at ho
    contradiction
  | answered _ _ hn =>
    rw [hq.1] at hn
    have h := (hr.lawful.resets hn).1
    rw [hq.2 i] at h
    contradiction

theorem Round.all_heard {s : Cluster n} (hr : Round s p x [] heard) (hq : Quiet s) :
    (n - 1) / 2 ≤ heard.card := by
  have hsub : Finset.univ.erase p ⊆ heard := by
    intro i hi
    exact (hr.complete hq (Finset.ne_of_mem_erase hi)).1
  have hcard := Finset.card_le_card hsub
  rw [Finset.card_erase_of_mem (Finset.mem_univ p), Finset.card_univ, Fintype.card_fin] at hcard
  omega

/-- The next broadcast starts where the one before has ended. -/
theorem Round.next {s t : Cluster n} (hr : Round s p x [] heard) (hq : Quiet s) (hy : y.Lawful)
    (hx : ∀ node, x.after node → y.before node)
    (hn : ∀ j, j ≠ p → t.nodes j = s.nodes j) (hc : t.chan = s.chan) :
    Round t p y (others p) ∅ := by
  refine ⟨hy,?_,?_,?_⟩
  · intro i hi
    rw [hc, hn i hi]
    exact .unsent (mem_others.mpr hi) (hq.1 p i) (hq.1 i p) (hx _ (hr.complete hq hi).2)
  · intro a b _ _
    rw [hc, hq.1]
  · rw [hc, hq.1]

end Algorep.Proofs
