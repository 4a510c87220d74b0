import Algorep.Kit.Network

namespace Algorep.Kit

/-- Processes whose receivers are threads of their own. Messages travel in lanes,
one first-in first-out channel for each lane and ordered pair of processes; a
receiver takes a message into the process's state and handles it later. -/
structure LaneNet (κ ι σ μ : Type) where
  nodes : ι → σ
  chan : κ → ι → ι → List μ

/-- `accept` is the receiver of a lane taking one message. It refuses while the
receiver is not waiting for one. -/
structure LaneProcess (κ ι σ α μ ε : Type) where
  start : ι → σ
  lane : μ → κ
  act : ι → σ → α → Option (Outcome ι σ μ ε)
  accept : ι → σ → κ → ι → μ → Option σ

inductive LaneLabel (κ ι α : Type)
  | act (i : ι) (a : α)
  | receive (k : κ) (src dst : ι)

namespace LaneNet

/-- Every message in flight satisfies `Q`, which may depend on its two ends. -/
def Carries (Q : ι → ι → μ → Prop) (s : LaneNet κ ι σ μ) : Prop :=
  ∀ k a b, ∀ m ∈ s.chan k a b, Q a b m

theorem Carries.mono {s : LaneNet κ ι σ μ} {Q Q' : ι → ι → μ → Prop} (h : s.Carries Q)
    (hq : ∀ a b m, Q a b m → Q' a b m) : s.Carries Q' :=
  fun k a b m hm => hq a b m (h k a b m hm)

variable [DecidableEq κ] [DecidableEq ι]

/-- What an outcome puts into one lane towards one process. -/
def handed (lane : μ → κ) (out : Outcome ι σ μ ε) (k : κ) (b : ι) : List μ :=
  match out.send with
  | none => []
  | some (dst,m) => if dst = b ∧ lane m = k then [m] else []

theorem mem_handed {lane : μ → κ} {out : Outcome ι σ μ ε} :
    m ∈ handed lane out k b ↔ out.send = some (b,m) ∧ lane m = k := by
  unfold handed
  cases hs : out.send with
  | none => simp
  | some p =>
    obtain ⟨dst,x⟩ := p
    by_cases hd : dst = b ∧ lane x = k
    · rcases hd with ⟨rfl,rfl⟩
      simp only [and_self, ↓reduceIte, List.mem_singleton, Option.some.injEq, Prod.mk.injEq,
        true_and]
      constructor
      · rintro rfl
        exact ⟨rfl,rfl⟩
      · rintro ⟨rfl,-⟩
        rfl
    · simp only [hd, ↓reduceIte, List.not_mem_nil, Option.some.injEq, Prod.mk.injEq, false_iff]
      rintro ⟨⟨rfl,rfl⟩,hl⟩
      exact hd ⟨rfl,hl⟩

def commit (lane : μ → κ) (s : LaneNet κ ι σ μ) (i : ι) (out : Outcome ι σ μ ε) :
    LaneNet κ ι σ μ where
  nodes := Function.update s.nodes i out.state
  chan k a b := if a = i then s.chan k a b ++ handed lane out k b else s.chan k a b

/-- The head of a channel has been taken; `rest` is what remains. -/
def take (s : LaneNet κ ι σ μ) (k : κ) (src dst : ι) (rest : List μ) (x : σ) :
    LaneNet κ ι σ μ where
  nodes := Function.update s.nodes dst x
  chan k' a b := if k' = k ∧ a = src ∧ b = dst then rest else s.chan k' a b

@[simp] theorem commit_self (lane : μ → κ) (s : LaneNet κ ι σ μ) (i : ι)
    (out : Outcome ι σ μ ε) : (s.commit lane i out).nodes i = out.state := by
  simp [commit]

theorem commit_other (lane : μ → κ) (s : LaneNet κ ι σ μ) (out : Outcome ι σ μ ε)
    (h : j ≠ i) : (s.commit lane i out).nodes j = s.nodes j := by
  simp [commit, h]

theorem commit_chan_self (lane : μ → κ) (s : LaneNet κ ι σ μ) (i : ι)
    (out : Outcome ι σ μ ε) (k : κ) (b : ι) :
    (s.commit lane i out).chan k i b = s.chan k i b ++ handed lane out k b := by
  simp [commit]

theorem commit_chan_other (lane : μ → κ) (s : LaneNet κ ι σ μ) (out : Outcome ι σ μ ε)
    (k : κ) (b : ι) (h : a ≠ i) : (s.commit lane i out).chan k a b = s.chan k a b := by
  simp [commit, h]

@[simp] theorem take_self (s : LaneNet κ ι σ μ) (k : κ) (src dst : ι) (rest : List μ) (x : σ) :
    (s.take k src dst rest x).nodes dst = x := by
  simp [take]

theorem take_other (s : LaneNet κ ι σ μ) (k : κ) (src : ι) (rest : List μ) (x : σ)
    (h : j ≠ dst) : (s.take k src dst rest x).nodes j = s.nodes j := by
  simp [take, h]

theorem take_chan (s : LaneNet κ ι σ μ) (k : κ) (src dst : ι) (rest : List μ) (x : σ)
    (k' : κ) (a b : ι) : (s.take k src dst rest x).chan k' a b =
      if k' = k ∧ a = src ∧ b = dst then rest else s.chan k' a b := rfl

theorem mem_commit_chan {s : LaneNet κ ι σ μ} {lane : μ → κ} {out : Outcome ι σ μ ε}
    (hm : m ∈ (s.commit lane i out).chan k a b) :
    m ∈ s.chan k a b ∨ (a = i ∧ out.send = some (b,m) ∧ lane m = k) := by
  by_cases ha : a = i
  · subst ha
    rw [commit_chan_self] at hm
    rcases List.mem_append.mp hm with hm | hm
    · exact .inl hm
    · exact .inr ⟨rfl,mem_handed.mp hm⟩
  · rw [commit_chan_other _ _ _ _ _ ha] at hm
    exact .inl hm

theorem mem_take_chan {s : LaneNet κ ι σ μ} (hc : s.chan k src dst = m::rest)
    (hy : y ∈ (s.take k src dst rest x).chan k' a b) : y ∈ s.chan k' a b := by
  rw [take_chan] at hy
  split at hy
  · rename_i he
    rcases he with ⟨rfl,rfl,rfl⟩
    exact hc ▸ List.mem_cons_of_mem _ hy
  · exact hy

theorem Carries.commit {s : LaneNet κ ι σ μ} {Q : ι → ι → μ → Prop} {lane : μ → κ}
    {out : Outcome ι σ μ ε} (h : s.Carries Q)
    (hout : ∀ dst m, out.send = some (dst,m) → Q i dst m) : (s.commit lane i out).Carries Q := by
  intro k a b m hm
  rcases mem_commit_chan hm with hm | ⟨rfl,hs,-⟩
  · exact h k a b m hm
  · exact hout b m hs

theorem Carries.take {s : LaneNet κ ι σ μ} {Q : ι → ι → μ → Prop} (h : s.Carries Q)
    (hc : s.chan k src dst = m::rest) : (s.take k src dst rest x).Carries Q :=
  fun k' a b y hy => h k' a b y (mem_take_chan hc hy)

/-- Every message in flight travels in its own lane. -/
def InLane (lane : μ → κ) (s : LaneNet κ ι σ μ) : Prop :=
  ∀ k a b, ∀ m ∈ s.chan k a b, lane m = k

theorem InLane.commit {s : LaneNet κ ι σ μ} {lane : μ → κ} {out : Outcome ι σ μ ε}
    (h : s.InLane lane) : (s.commit lane i out).InLane lane := by
  intro k a b m hm
  rcases mem_commit_chan hm with hm | ⟨-,-,hk⟩
  · exact h k a b m hm
  · exact hk

theorem InLane.take {s : LaneNet κ ι σ μ} {lane : μ → κ} (h : s.InLane lane)
    (hc : s.chan k src dst = m::rest) : (s.take k src dst rest x).InLane lane :=
  fun k' a b y hy => h k' a b y (mem_take_chan hc hy)

end LaneNet

namespace LaneProcess
variable [DecidableEq κ] [DecidableEq ι]

def step (P : LaneProcess κ ι σ α μ ε) (s : LaneNet κ ι σ μ) :
    LaneLabel κ ι α → Option (LaneNet κ ι σ μ × List (ι × ε))
  | .act i a => (P.act i (s.nodes i) a).map (fun out =>
      (s.commit P.lane i out,out.events.map (fun e => (i,e))))
  | .receive k src dst =>
    match s.chan k src dst with
    | [] => none
    | m::rest => (P.accept dst (s.nodes dst) k src m).map (fun x =>
        (s.take k src dst rest x,[]))

def network (P : LaneProcess κ ι σ α μ ε) :
    Machine (LaneNet κ ι σ μ) (LaneLabel κ ι α) (ι × ε) where
  start := { nodes := P.start, chan := fun _ _ _ => [] }
  step := P.step

/-- Everything a step of the network can be. -/
inductive Step (P : LaneProcess κ ι σ α μ ε) (s : LaneNet κ ι σ μ) :
    LaneLabel κ ι α → LaneNet κ ι σ μ → List (ι × ε) → Prop
  | act (i : ι) (a : α) (out : Outcome ι σ μ ε) (ho : P.act i (s.nodes i) a = some out) :
      Step P s (.act i a) (s.commit P.lane i out) (out.events.map (fun e => (i,e)))
  | receive (k : κ) (src dst : ι) (m : μ) (rest : List μ) (x : σ)
      (hc : s.chan k src dst = m::rest) (hx : P.accept dst (s.nodes dst) k src m = some x) :
      Step P s (.receive k src dst) (s.take k src dst rest x) []

theorem step_of_eq {P : LaneProcess κ ι σ α μ ε} {s t : LaneNet κ ι σ μ}
    {l : LaneLabel κ ι α} {e : List (ι × ε)} (h : P.network.step s l = some (t,e)) :
    P.Step s l t e := by
  cases l with
  | act i a =>
    simp only [network, step, Option.map_eq_some_iff, Prod.mk.injEq] at h
    obtain ⟨out,ho,rfl,rfl⟩ := h
    exact .act i a out ho
  | receive k src dst =>
    simp only [network, step] at h
    split at h
    · contradiction
    · rename_i m rest hc
      simp only [Option.map_eq_some_iff, Prod.mk.injEq] at h
      obtain ⟨x,hx,rfl,rfl⟩ := h
      exact .receive k src dst m rest x hc hx

/-- What a step preserves, when each process keeps to `J` as long as what reaches it keeps to
`Q`. -/
theorem Step.keeps {P : LaneProcess κ ι σ α μ ε} {J : ι → σ → Prop} {Q : ι → ι → μ → Prop}
    (h : P.Step s l t e) (hs : (∀ i, J i (s.nodes i)) ∧ s.Carries Q)
    (hact : ∀ i a out, l = .act i a → P.act i (s.nodes i) a = some out →
      J i out.state ∧ ∀ dst m, out.send = some (dst,m) → Q i dst m)
    (haccept : ∀ k src i m x, l = .receive k src i → Q src i m →
      P.accept i (s.nodes i) k src m = some x → J i x) :
    (∀ i, J i (t.nodes i)) ∧ t.Carries Q := by
  obtain ⟨hnodes,hmsgs⟩ := hs
  cases h with
  | act i a out ho =>
    obtain ⟨hi,hsend⟩ := hact i a out rfl ho
    refine ⟨fun j => ?_,hmsgs.commit hsend⟩
    by_cases hj : j = i
    · subst hj
      rwa [LaneNet.commit_self]
    · rw [LaneNet.commit_other _ _ _ hj]
      exact hnodes j
  | receive k src dst m rest x hc hx =>
    refine ⟨fun j => ?_,hmsgs.take hc⟩
    by_cases hj : j = dst
    · subst hj
      rw [LaneNet.take_self]
      exact haccept k src j m x rfl (hmsgs _ _ _ _ (hc ▸ List.mem_cons_self)) hx
    · rw [LaneNet.take_other _ _ _ _ _ hj]
      exact hnodes j

/-- A message in flight was so before or has just been sent. -/
theorem Step.came {P : LaneProcess κ ι σ α μ ε} (h : P.Step s l t e) (hm : m ∈ t.chan k a b) :
    m ∈ s.chan k a b ∨ ∃ x out, l = .act a x ∧ P.act a (s.nodes a) x = some out ∧
      out.send = some (b,m) := by
  cases h with
  | act i x out ho =>
    rcases LaneNet.mem_commit_chan hm with hm | ⟨rfl,hs,-⟩
    · exact .inl hm
    · exact .inr ⟨x,out,rfl,ho,hs⟩
  | receive k' src dst m' rest x hc hx => exact .inl (LaneNet.mem_take_chan hc hm)

/-- A message stays in flight until it is taken. -/
theorem Step.kept {P : LaneProcess κ ι σ α μ ε} (h : P.Step s l t e) (hm : m ∈ s.chan k a b) :
    m ∈ t.chan k a b ∨
      (l = .receive k a b ∧ P.accept b (s.nodes b) k a m = some (t.nodes b)) := by
  cases h with
  | act i x out ho =>
    left
    by_cases ha : a = i
    · subst ha
      rw [LaneNet.commit_chan_self]
      exact List.mem_append_left _ hm
    · rwa [LaneNet.commit_chan_other _ _ _ _ _ ha]
  | receive k' src dst m' rest x hc hx =>
    rw [LaneNet.take_chan]
    split
    · rename_i he
      rcases he with ⟨rfl,rfl,rfl⟩
      rw [hc] at hm
      rcases List.mem_cons.mp hm with rfl | hm
      · exact .inr ⟨rfl,by rwa [LaneNet.take_self]⟩
      · exact .inl hm
    · exact .inl hm

/-- What is handed over for sending is in flight. -/
theorem Step.sent {P : LaneProcess κ ι σ α μ ε} (h : P.Step s (.act i x) t e)
    (ho : P.act i (s.nodes i) x = some out) (hs : out.send = some (b,m)) :
    m ∈ t.chan (P.lane m) i b := by
  cases h with
  | act _ _ out' ho' =>
    rw [ho] at ho'
    cases ho'
    rw [LaneNet.commit_chan_self]
    exact List.mem_append_right _ (LaneNet.mem_handed.mpr ⟨hs,rfl⟩)

end LaneProcess

end Algorep.Kit
