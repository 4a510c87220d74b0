import Algorep.Kit.Hosting
import Mathlib.Algebra.BigOperators.Group.Finset.Basic
import Mathlib.Algebra.GroupWithZero.Nat
import Mathlib.Data.Fintype.BigOperators

namespace Algorep.Kit

/-! What the processes of a network, and the messages of one lane, still have to spend. A run in
which each step pays for itself cannot spend more than there was at its start. -/

/-- A sum of which one term changes. -/
theorem sum_change [Fintype ι] [DecidableEq ι] (f f' : ι → Nat) (j : ι)
    (h : ∀ i, i ≠ j → f' i = f i) : ∑ i, f' i + f j = ∑ i, f i + f' j := by
  have hsplit := Finset.add_sum_erase Finset.univ f (Finset.mem_univ j)
  have hsplit' := Finset.add_sum_erase Finset.univ f' (Finset.mem_univ j)
  have hrest : ∑ i ∈ Finset.univ.erase j, f' i = ∑ i ∈ Finset.univ.erase j, f i :=
    Finset.sum_congr rfl (fun i hi => h i (Finset.ne_of_mem_erase hi))
  omega

/-- The same over a list without duplicates. -/
theorem sum_map_change [DecidableEq α] {xs : List α} (f f' : α → Nat) (hnodup : xs.Nodup)
    (hx : x ∈ xs) (h : ∀ y, y ≠ x → f' y = f y) :
    (xs.map f').sum + f x = (xs.map f).sum + f' x := by
  have hsplit := List.sum_map_erase f hx
  have hsplit' := List.sum_map_erase f' hx
  have hrest : (xs.erase x).map f' = (xs.erase x).map f :=
    List.map_congr_left (fun y hy => h y (hnodup.mem_erase_iff.mp hy).1)
  rw [hrest] at hsplit'
  omega

namespace LaneNet
variable [DecidableEq κ] [DecidableEq ι] [Fintype ι]

/-- `f` weighs the processes, and `g` the messages of lane `k` by their destination. -/
def weight (f : ι → σ → Nat) (g : ι → μ → Nat) (k : κ) (s : LaneNet κ ι σ μ) : Nat :=
  ∑ i, f i (s.nodes i) + ∑ p : ι × ι, ((s.chan k p.1 p.2).map (g p.2)).sum

/-- The weight of what an outcome hands over. -/
def sentWeight (g : ι → μ → Nat) (lane : μ → κ) (k : κ) (out : Outcome ι σ μ ε) : Nat :=
  match out.send with
  | some (dst,m) => if lane m = k then g dst m else 0
  | none => 0

section
variable {f : ι → σ → Nat} {g : ι → μ → Nat} {k : κ} {s : LaneNet κ ι σ μ}

theorem weight_commit (lane : μ → κ) (i : ι) (out : Outcome ι σ μ ε) :
    (s.commit lane i out).weight f g k + f i (s.nodes i) =
      s.weight f g k + f i out.state + sentWeight g lane k out := by
  have hnodes := sum_change (fun a => f a (s.nodes a))
    (fun a => f a ((s.commit lane i out).nodes a)) i
    (fun a ha => by rw [commit_other _ _ _ ha])
  have hchan : ∑ p : ι × ι, (((s.commit lane i out).chan k p.1 p.2).map (g p.2)).sum =
      ∑ p : ι × ι, ((s.chan k p.1 p.2).map (g p.2)).sum + sentWeight g lane k out := by
    cases hsend : out.send with
    | none =>
      simp [sentWeight, hsend, commit, handed]
    | some q =>
      obtain ⟨dst,m⟩ := q
      have hone := sum_change (fun p : ι × ι => ((s.chan k p.1 p.2).map (g p.2)).sum)
        (fun p : ι × ι => (((s.commit lane i out).chan k p.1 p.2).map (g p.2)).sum) (i,dst)
        (by
          rintro ⟨a,b⟩ hab
          by_cases ha : a = i
          · subst ha
            have hb : ¬ (dst = b ∧ lane m = k) := fun h => hab (by rw [h.1])
            simp [commit_chan_self, handed, hsend, hb]
          · rw [commit_chan_other _ _ _ _ _ ha])
      have hthere : (((s.commit lane i out).chan k i dst).map (g dst)).sum =
          ((s.chan k i dst).map (g dst)).sum + sentWeight g lane k out := by
        rw [commit_chan_self]
        by_cases hlane : lane m = k <;> simp [handed, sentWeight, hsend, hlane]
      simp only at hone
      omega
  have hself : (s.commit lane i out).nodes i = out.state := commit_self lane s i out
  unfold weight
  simp only [hself] at hnodes
  omega

theorem weight_take (hc : s.chan k src dst = m::rest) (x : σ) :
    (s.take k src dst rest x).weight f g k + f dst (s.nodes dst) + g dst m =
      s.weight f g k + f dst x := by
  have hnodes := sum_change (fun a => f a (s.nodes a))
    (fun a => f a ((s.take k src dst rest x).nodes a)) dst
    (fun a ha => by rw [take_other _ _ _ _ _ ha])
  have hone := sum_change (fun p : ι × ι => ((s.chan k p.1 p.2).map (g p.2)).sum)
    (fun p : ι × ι => (((s.take k src dst rest x).chan k p.1 p.2).map (g p.2)).sum) (src,dst)
    (by
      rintro ⟨a,b⟩ hab
      have hother : ¬ (a = src ∧ b = dst) := fun h => hab (by rw [h.1, h.2])
      simp [take_chan, hother])
  have hself : (s.take k src dst rest x).nodes dst = x := take_self s k src dst rest x
  have hthere : (s.take k src dst rest x).chan k src dst = rest := by simp [take_chan]
  unfold weight
  simp only [hself, hthere, hc, List.map_cons, List.sum_cons] at hnodes hone
  omega

end

end LaneNet

namespace LaneProcess
variable [DecidableEq κ] [DecidableEq ι] [Fintype ι]

/-- What a step costs. -/
def cost (spent : ι → σ → α → Nat) (taken : μ → Nat) (s : LaneNet κ ι σ μ) : LaneLabel κ ι α → Nat
  | .act i a => spent i (s.nodes i) a
  | .receive k src dst => ((s.chan k src dst).head?.map taken).getD 0

/-- Every step that a guard lets pass, of processes and messages in order, takes what it costs
out of the weights. -/
structure Pays (P : LaneProcess κ ι σ α μ ε) (k : κ) (J : ι → σ → Prop) (Q : ι → ι → μ → Prop)
    (ok : ι → σ → α → Prop) (f : ι → σ → Nat) (g : ι → μ → Nat) (spent : ι → σ → α → Nat)
    (taken : μ → Nat) : Prop where
  act : ∀ i x a out, J i x → ok i x a → P.act i x a = some out →
    f i out.state + LaneNet.sentWeight g P.lane k out + spent i x a = f i x
  accept : ∀ src i x m y, J i x → Q src i m → P.accept i x k src m = some y →
    f i y + taken m = f i x + g i m

/-- The moves of the guard: actions that it lets pass, and receiving in the one lane. -/
def within (k : κ) (ok : ι → σ → α → Prop) (s : LaneNet κ ι σ μ) : LaneLabel κ ι α → Prop
  | .act i a => ok i (s.nodes i) a
  | .receive k' _ _ => k' = k

theorem Pays.step {P : LaneProcess κ ι σ α μ ε} {k : κ} {J : ι → σ → Prop} {Q : ι → ι → μ → Prop}
    {ok : ι → σ → α → Prop} {f : ι → σ → Nat} {g : ι → μ → Nat} {spent : ι → σ → α → Nat}
    {taken : μ → Nat} {s t : LaneNet κ ι σ μ} (h : P.Pays k J Q ok f g spent taken)
    (hj : ∀ i, J i (s.nodes i)) (hq : ∀ a b, ∀ m ∈ s.chan k a b, Q a b m)
    (hok : within k ok s l) (hs : P.Step s l t e) :
    t.weight f g k + cost spent taken s l = s.weight f g k := by
  cases hs with
  | act i a out ho =>
    have hpays := h.act i (s.nodes i) a out (hj i) hok ho
    have hweight := LaneNet.weight_commit (f := f) (g := g) (k := k) (s := s) P.lane i out
    simp only [cost]
    omega
  | receive k' src dst m rest x hc hx =>
    have hk : k' = k := hok
    subst hk
    have hpays := h.accept src dst (s.nodes dst) m x (hj dst)
      (hq src dst m (hc ▸ List.mem_cons_self)) hx
    have hweight := LaneNet.weight_take (f := f) (g := g) hc x
    simp only [cost, hc, List.head?_cons, Option.map_some, Option.getD_some]
    omega

/-- What a run has cost and what is left make up what there was. -/
theorem Pays.run {P : LaneProcess κ ι σ α μ ε} {k : κ} {J : ι → σ → Prop} {Q : ι → ι → μ → Prop}
    {ok : ι → σ → α → Prop} {f : ι → σ → Nat} {g : ι → μ → Nat} {spent : ι → σ → α → Nat}
    {taken : μ → Nat} (h : P.Pays k J Q ok f g spent taken)
    (hinv : ∀ s es, P.network.traced.Reach (fun _ => within k ok) s es →
      (∀ i, J i (s.nodes i)) ∧ ∀ a b, ∀ m ∈ s.chan k a b, Q a b m)
    (hr : P.network.traced.Reach (fun _ => within k ok) s es) :
    s.weight f g k + (es.map (fun x => cost spent taken x.1 x.2)).sum =
      P.network.start.weight f g k := by
  induction hr with
  | start => simp [Machine.traced]
  | step hr hok hs ih =>
    obtain ⟨rfl,e,he⟩ := Machine.traced_step hs
    have hstep := h.step (hinv _ _ hr).1 (hinv _ _ hr).2 hok (step_of_eq he)
    simp only [List.map_append, List.map_cons, List.map_nil, List.sum_append, List.sum_cons,
      List.sum_nil]
    omega

/-- Where every step costs something, a run is no longer than what there was. -/
theorem Pays.length_le {P : LaneProcess κ ι σ α μ ε} {k : κ} {J : ι → σ → Prop}
    {Q : ι → ι → μ → Prop} {ok : ι → σ → α → Prop} {f : ι → σ → Nat} {g : ι → μ → Nat}
    {spent : ι → σ → α → Nat} {taken : μ → Nat} (h : P.Pays k J Q ok f g spent taken)
    (hspent : ∀ i x a out, J i x → ok i x a → P.act i x a = some out → 1 ≤ spent i x a)
    (htaken : ∀ a b m, Q a b m → 1 ≤ taken m)
    (hinv : ∀ s es, P.network.traced.Reach (fun _ => within k ok) s es →
      (∀ i, J i (s.nodes i)) ∧ ∀ a b, ∀ m ∈ s.chan k a b, Q a b m)
    (hr : P.network.traced.Reach (fun _ => within k ok) s es) :
    s.weight f g k + es.length ≤ P.network.start.weight f g k := by
  induction hr with
  | start => simp [Machine.traced]
  | @step s es l t x hr hok hs ih =>
    obtain ⟨rfl,e,he⟩ := Machine.traced_step hs
    obtain ⟨hj,hq⟩ := hinv _ _ hr
    have hstep := step_of_eq he
    have hpays := h.step hj hq hok hstep
    have hcost : 1 ≤ cost spent taken s l := by
      cases hstep with
      | act i a out ho => exact hspent i _ a out (hj i) hok ho
      | receive k' src dst m rest y hc hx =>
        have hk : k' = k := hok
        subst hk
        simp only [cost, hc, List.head?_cons, Option.map_some, Option.getD_some]
        exact htaken src dst m (hq src dst m (hc ▸ List.mem_cons_self))
    simp only [List.length_append, List.length_cons, List.length_nil]
    omega

omit [Fintype ι] in
/-- What one process tells, from some state on, is paid out of what it had there. Nothing that
reaches it adds to that. -/
theorem told_le {P : LaneProcess κ ι σ α μ ε} {i : ι} {told : σ → α → List β} {f : σ → Nat}
    {K : σ → Prop} {u : LaneNet κ ι σ μ}
    {ok : List (LaneNet κ ι σ μ × LaneLabel κ ι α) → LaneNet κ ι σ μ → LaneLabel κ ι α → Prop}
    (hact : ∀ s es a out, (P.network.traced.startingAt u).Reach ok s es → ok es s (.act i a) →
      K (s.nodes i) → P.act i (s.nodes i) a = some out →
      (told (s.nodes i) a).length + f out.state ≤ f (s.nodes i) ∧ K out.state)
    (haccept : ∀ k src x m y, K x → P.accept i x k src m = some y → f y ≤ f x ∧ K y)
    (hu : K (u.nodes i)) (hr : (P.network.traced.startingAt u).Reach ok s es) :
    (toldBy told i es).length + f (s.nodes i) ≤ f (u.nodes i) ∧ K (s.nodes i) := by
  induction hr with
  | start => exact ⟨Nat.le_of_eq (Nat.zero_add _),hu⟩
  | @step s es l t x hr hok hs ih =>
    obtain ⟨hle,hk⟩ := ih
    obtain ⟨rfl,e,he⟩ := Machine.traced_step hs
    rw [toldBy_append, List.length_append]
    cases step_of_eq he with
    | act j a out ho =>
      rw [toldBy_act]
      by_cases hj : j = i
      · subst hj
        obtain ⟨hpays,hk'⟩ := hact s es a out hr hok hk ho
        rw [LaneNet.commit_self, if_pos rfl]
        exact ⟨by omega,hk'⟩
      · rw [LaneNet.commit_other _ _ _ (Ne.symm hj), if_neg hj]
        exact ⟨by simpa using hle,hk⟩
    | receive k src dst m rest y hc hy =>
      rw [toldBy_receive]
      by_cases hd : dst = i
      · subst hd
        obtain ⟨hpays,hk'⟩ := haccept k src _ m y hk hy
        rw [LaneNet.take_self]
        exact ⟨by simpa using Nat.le_trans (Nat.add_le_add_left hpays _) hle,hk'⟩
      · rw [LaneNet.take_other _ _ _ _ _ (Ne.symm hd)]
        exact ⟨by simpa using hle,hk⟩

end LaneProcess

end Algorep.Kit
