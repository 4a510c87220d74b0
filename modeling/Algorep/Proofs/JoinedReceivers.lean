import Algorep.Proofs.LifecycleSteps

namespace Algorep.Proofs
open Kit Program Program.Lifecycle

/-- A wait for a receiver that has been told to stop is over only once the receiver has
finished. -/
def waitsOut (_ : List Move) (s : Server) (l : Move) : Prop :=
  l = .main → ∀ tag ∈ stopped, s.main.head? = some (.waitForReceiver tag) →
    s.isActive tag = false → s.phase (.receiver tag) = .finished

/-- The main thread has yet to wait for a receiver, or the receiver has finished. -/
structure Awaited (s : Server) : Prop where
  init : InInit s
  waits : ∀ tag, .waitForReceiver tag ∈ s.main ∨ .join tag ∈ s.main ∨
    s.phase (.receiver tag) = .finished
  active : ∀ tag, tag ∉ stopped → .setActive tag ∈ s.main ∨ s.isActive tag = true
  stops : ∀ calls, Stopping s calls → ∀ tag,
    .stopReceiver tag ∈ calls ∨ .setInactive tag ∈ calls → tag ∈ stopped

/-- The REPL thread stops, and clears the flags of, the same three receivers. -/
theorem Awaited.stopping (h : Awaited s) (hs : LifeStep s l t) (ht : Stopping t calls)
    (htag : .stopReceiver tag ∈ calls ∨ .setInactive tag ∈ calls) : tag ∈ stopped := by
  have hcame : ∀ x ∈ calls, x = .stopReceiver tag ∨ x = .setInactive tag → tag ∈ stopped := by
    intro x hx hcall
    rcases hs.call_came ht hx with hfirst | ⟨before,hp,hx⟩ | ⟨tag',rest,hp,-,-,hnew⟩
    · rcases hcall with rfl | rfl
      · simpa using hfirst
      · simp at hfirst
    · apply h.stops before hp tag
      rcases hcall with rfl | rfl
      · exact .inl hx
      · exact .inr hx
    · obtain ⟨hstop,hclear⟩ := stopReceiver_calls tag' tag
      rcases hcall with rfl | rfl
      · simp [hstop] at hnew
      · obtain rfl : tag = tag' := by simpa [hclear] using hnew
        exact h.stops _ hp tag (.inl List.mem_cons_self)
  rcases htag with hx | hx
  · exact hcame _ hx (.inl rfl)
  · exact hcame _ hx (.inr rfl)

/-- The flags that nobody clears stay set. -/
theorem Awaited.active_step (h : Awaited s) (hs : LifeStep s l t) (htag : tag ∉ stopped) :
    .setActive tag ∈ t.main ∨ t.isActive tag = true := by
  rcases hs.isActive tag with hsame | ⟨-,hset⟩ | ⟨rest,hclear⟩
  · rcases h.active tag htag with hm | ha
    · rcases hs.main_cases with heq | ⟨call,rest,-,hcons,hc⟩
      · exact .inl (heq ▸ hm)
      · rcases List.mem_cons.mp (hcons ▸ hm) with rfl | hrest
        · cases hc
          exact .inr (Function.update_self ..)
        · left
          rcases hc.main_eq with heq | ⟨tag',-,heq⟩ <;> rw [heq]
          · exact hrest
          · exact List.mem_cons_of_mem _ hrest
    · exact .inr (hsame.trans ha)
  · exact .inr hset
  · exact absurd (h.stops _ hclear tag (.inr List.mem_cons_self)) htag

/-- A wait that is passed over is one for a receiver that has finished. -/
theorem Awaited.passed (h : Awaited s) (hok : waitsOut es s .main)
    (hm : s.main = .waitForReceiver tag::rest) (ha : s.isActive tag = false) :
    s.phase (.receiver tag) = .finished := by
  by_cases htag : tag ∈ stopped
  · exact hok rfl tag htag (by rw [hm]; rfl) ha
  · rcases h.active tag htag with hset | hactive
    · rcases List.mem_cons.mp (hm ▸ hset) with hset | hset
      · cases hset
      · have hordered := init_call (h.init.head hm (by simp)) hset
        simp [ordered] at hordered
    · rw [ha] at hactive
      contradiction

/-- A wait is ahead until it is made. -/
theorem Awaited.wait_step (h : Awaited s) (hok : waitsOut es s l) (hs : LifeStep s l t)
    (tag : MessageTag) : .waitForReceiver tag ∈ t.main ∨ .join tag ∈ t.main ∨
      t.phase (.receiver tag) = .finished := by
  have hfinished : s.phase (.receiver tag) = .finished → t.phase (.receiver tag) = .finished :=
    hs.finished h.init
  rcases hs.main_cases with heq | ⟨call,rest,rfl,hm,hc⟩
  · rw [heq]
    exact (h.waits tag).imp id (.imp id hfinished)
  · have hwaits := h.waits tag
    rw [hm] at hwaits
    cases hc with
    | starts tag' | activates tag' =>
      simp only [List.mem_cons, reduceCtorEq, false_or] at hwaits
      exact hwaits.imp id (.imp id hfinished)
    | waits tag' ha =>
      simp only [List.mem_cons, reduceCtorEq, false_or, MainCall.waitForReceiver.injEq] at hwaits
      simp only [List.mem_cons, reduceCtorEq, false_or, MainCall.join.injEq]
      tauto
    | passes tag' ha =>
      simp only [List.mem_cons, reduceCtorEq, false_or, MainCall.waitForReceiver.injEq] at hwaits
      rcases hwaits with (rfl | hwaits) | hwaits | hwaits
      · exact .inr (.inr (hfinished (h.passed hok hm ha)))
      · exact .inl hwaits
      · exact .inr (.inl hwaits)
      · exact .inr (.inr (hfinished hwaits))
    | joins tag' hp =>
      simp only [List.mem_cons, reduceCtorEq, false_or, MainCall.join.injEq] at hwaits
      rcases hwaits with hwaits | (rfl | hwaits) | hwaits
      · exact .inl hwaits
      · exact .inr (.inr hp)
      · exact .inr (.inl hwaits)
      · exact .inr (.inr (hfinished hwaits))

theorem Awaited.step (h : Awaited s) (hok : waitsOut es s l) (hs : LifeStep s l t) : Awaited t :=
  ⟨hs.inInit h.init,h.wait_step hok hs,fun _ htag => h.active_step hs htag,
    fun _ ht _ htag => h.stopping hs ht htag⟩

theorem reach_awaited (hr : lifecycle.Reach waitsOut s es) : Awaited s := by
  induction hr with
  | start =>
    refine ⟨init_inInit,fun tag => .inl ?_,fun tag _ => .inl ?_,fun calls hc => by cases hc⟩
    · cases tag <;> decide
    · cases tag <;> decide
  | step hr hok hs ih => exact ih.step hok (lifecycle_step hs).2.1

/-- When `Node::init` returns, all its receivers have finished, unless it has passed over one
that had been told to stop. -/
theorem receivers_finished (hr : lifecycle.Reach waitsOut s es) (hreturned : s.main = [])
    (tag : MessageTag) : s.phase (.receiver tag) = .finished := by
  have hwaits := (reach_awaited hr).waits tag
  simpa [hreturned] using hwaits

/-- A server is started, and shut down again. Its receivers `last` end before the main thread
goes on. -/
def startsAndStops (last : List MessageTag) : List Move :=
  List.replicate 10 Move.main ++ [Move.fetch (some .start)] ++
    stopped.flatMap (fun tag => [Move.test (.receiver tag),.proceed (.receiver tag)]) ++
    [Move.fetch (some .shutdown)] ++ List.replicate 9 Move.stop ++
    [Move.test .ping,.proceed .ping] ++ List.replicate 3 Move.stop ++
    last.map (Move.receive · true) ++ [Move.receive .client true] ++ List.replicate 7 Move.main

def waitsOutTest (s : Server) (l : Move) : Bool :=
  l != .main || stopped.all (fun tag => s.main.head? != some (.waitForReceiver tag) ||
    s.isActive tag || s.phase (.receiver tag) == .finished)

theorem waitsOut_of_test (h : waitsOutTest s l = true) : waitsOut es s l := by
  rintro rfl tag htag hm ha
  simp only [waitsOutTest, bne_self_eq_false, Bool.false_or, List.all_eq_true] at h
  simpa [hm, ha] using h tag htag

theorem startsAndStops_end : (lifecycle.follow (fun _ => waitsOutTest) (startsAndStops stopped)
    lifecycle.start []).map (fun p => p.1.main) = some [] := by
  decide

theorem receivers_finished_startsAndStops : ∃ s es, lifecycle.Reach waitsOut s es ∧
    s.main = [] ∧ s.phase (.receiver .leaderElection) = .finished := by
  obtain ⟨s,es,hr,h⟩ := Machine.exists_reach (fun _ _ _ => waitsOut_of_test) startsAndStops_end
  exact ⟨s,es,hr,h,receivers_finished hr h .leaderElection⟩

theorem outlives_end : (lifecycle.follow (fun _ _ _ => true)
    (startsAndStops [.consensus,.failureDetection]) lifecycle.start []).map
      (fun p => (p.1.main,p.1.phase (.receiver .leaderElection))) = some ([],.receiving) := by
  decide

/-- The election receiver is still there when `Node::init` has returned. -/
theorem receiver_outlives_init : ∃ s es, lifecycle.Reach Machine.free s es ∧ s.main = [] ∧
    s.phase (.receiver .leaderElection) = .receiving := by
  obtain ⟨s,es,hr,h⟩ := Machine.exists_reach (fun _ _ _ _ => trivial) outlives_end
  simp only [Prod.mk.injEq] at h
  exact ⟨s,es,hr,h⟩

end Algorep.Proofs
