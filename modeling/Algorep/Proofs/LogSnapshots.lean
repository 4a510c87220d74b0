import Algorep.Kit.Before
import Algorep.Program.LogFile

namespace Algorep.Proofs
open Kit Program Program.LogFile
open Program.Json (Bytes)

/-! The log as an atomic object. -/

/-- What a whole call does. -/
def applyEdit (contents : Bytes) : Edit → Bytes
  | .append entry => contents ++ (entry ++ [0x0A])
  | .replace str => str

def contentsAfter (contents : Bytes) (edits : List Edit) : Bytes := edits.foldl applyEdit contents

/-- The calls in the order in which they took the mutex. -/
def takenEdits (es : List (Event ι)) : List Edit :=
  es.filterMap (fun e => match e with
    | .took edit => some edit
    | _ => none)

/-- Those among them that have written. -/
def writtenEdits (es : List (Event ι)) : List Edit :=
  es.filterMap (fun e => match e with
    | .wrote edit => some edit
    | _ => none)

/-- A read returns what the first so many calls have made of the file, all of which have
written. -/
def ReadsSnapshot (initial : Option Bytes) (e : Event ι) (before : List (Event ι)) : Prop :=
  ∀ t contents, e = .read t contents → ∃ k, k ≤ (writtenEdits before).length ∧
    contents = contentsAfter (initial.getD []) ((takenEdits before).take k)

/-- A `replace` has emptied the file and not written yet. -/
def truncated : Phase → Bool
  | .writing (.replace _) => true
  | _ => false

/-- A `replace` empties the file only while no read has read a part of it, and a read reads
only while the file is not emptied. -/
def readsApart (s : State ι) : Move ι → Prop
  | .openForWriting t => ∀ str, s.threads t = .opening (.replace str) →
      ∀ u contents, s.threads u = .reading contents → contents = []
  | .readSome _ _ => ∀ u, truncated (s.threads u) = false
  | _ => True

/-! Who has the mutex. -/

def holdsMutex : Phase → Bool
  | .opening _ | .writing _ | .closing => true
  | _ => false

/-- A call that has taken the mutex and not written yet. -/
def unwritten : Phase → List Edit
  | .opening edit | .writing edit => [edit]
  | _ => []

def pendingEdit (s : State ι) : List Edit :=
  s.mutex.toList.flatMap (fun t => unwritten (s.threads t))

structure SnapshotOk (initial : Option Bytes) (s : State ι) (es : List (Event ι)) : Prop where
  holder : ∀ t, holdsMutex (s.threads t) = true → s.mutex = some t
  order : takenEdits es = writtenEdits es ++ pendingEdit s
  current : (∀ t, truncated (s.threads t) = false) →
    s.contents = contentsAfter (initial.getD []) (writtenEdits es)
  emptied : ∀ t, truncated (s.threads t) = true → s.file = some []
  reading : ∀ t contents, s.threads t = .reading contents → contents <+: s.contents

theorem taken_append (es x : List (Event ι)) :
    takenEdits (es ++ x) = takenEdits es ++ takenEdits x :=
  List.filterMap_append

theorem written_append (es x : List (Event ι)) :
    writtenEdits (es ++ x) = writtenEdits es ++ writtenEdits x :=
  List.filterMap_append

theorem contentsAfter_snoc (contents : Bytes) (edits : List Edit) (edit : Edit) :
    contentsAfter contents (edits ++ [edit]) = applyEdit (contentsAfter contents edits) edit := by
  simp [contentsAfter]

theorem truncated_holds (h : truncated phase = true) : holdsMutex phase = true := by
  unfold truncated at h
  split at h
  · rfl
  · contradiction

theorem unwritten_outside (h : holdsMutex phase = false) : unwritten phase = [] := by
  cases phase <;> first | rfl | contradiction

theorem truncated_outside (h : holdsMutex phase = false) : truncated phase = false := by
  cases htruncated : truncated phase with
  | false => rfl
  | true =>
    rw [truncated_holds htruncated] at h
    contradiction

theorem prefix_writeWithMode {file : Bytes} (h : contents <+: file)
    (hedit : ∀ str, edit = .replace str → file = []) : contents <+: writeWithMode edit file := by
  cases edit with
  | append entry => exact h.trans (List.prefix_append _ _)
  | replace str =>
    rw [hedit str rfl] at h
    rw [List.prefix_nil.mp h]
    exact List.nil_prefix

theorem prefix_openMode {file : Bytes} (h : contents <+: file)
    (hedit : ∀ str, edit = .replace str → contents = []) : contents <+: openMode edit file := by
  cases edit with
  | append entry => exact h
  | replace str =>
    rw [hedit str rfl]
    exact List.nil_prefix

/-- A prefix of the file, and the next bytes. -/
theorem prefix_chunk (h : contents <+: file) (count : Nat) :
    contents ++ (file.drop contents.length).take count <+: file := by
  obtain ⟨rest,rfl⟩ := h
  rw [List.drop_left]
  exact (List.prefix_append_right_inj contents).mpr (List.take_prefix _ _)

/-- Nothing comes next only at the end of the file. -/
theorem chunk_nil (h : contents <+: file) (hcount : 0 < count)
    (hchunk : (file.drop contents.length).take count = []) : contents = file := by
  obtain ⟨rest,rfl⟩ := h
  rw [List.drop_left, List.take_eq_nil_iff] at hchunk
  rcases hchunk with hchunk | hchunk
  · omega
  · rw [hchunk, List.append_nil]

/-! The invariant. -/

/-- What holds of the threads beside the one that takes, or has, the mutex. -/
theorem SnapshotOk.others (h : SnapshotOk initial s es)
    (ht : s.mutex = some t ∨ s.mutex = none) (hu : u ≠ t) : holdsMutex (s.threads u) = false := by
  cases hholds : holdsMutex (s.threads u) with
  | false => rfl
  | true =>
    have hmutex := h.holder u hholds
    rcases ht with ht | ht
    · rw [ht] at hmutex
      exact absurd (Option.some.inj hmutex).symm hu
    · rw [ht] at hmutex
      contradiction

/-- A read that has come to the end of the file returns the calls that have written. -/
theorem SnapshotOk.snapshot (h : SnapshotOk initial s es)
    (hwhole : ∀ t, truncated (s.threads t) = false) :
    ReadsSnapshot initial (.read t s.contents) es := by
  rintro u contents ⟨⟩
  refine ⟨(writtenEdits es).length,Nat.le_refl _,?_⟩
  rw [h.order, List.take_left' rfl]
  exact h.current hwhole

/-- A file that is not there has not been emptied. -/
theorem SnapshotOk.whole_of_none {s : State ι} (h : SnapshotOk initial s es)
    (hfile : s.file = none) (t : ι) : truncated (s.threads t) = false := by
  cases htruncated : truncated (s.threads t) with
  | false => rfl
  | true =>
    rw [h.emptied t htruncated] at hfile
    contradiction

/-- What a call returns is no part of the file's history. -/
theorem SnapshotOk.returned {es : List (Event ι)} (h : SnapshotOk initial s es) (t : ι)
    (contents : Bytes) :
    SnapshotOk initial s (es ++ [.read t contents]) := by
  have htaken : takenEdits (es ++ [.read t contents]) = takenEdits es := by
    simp [takenEdits]
  have hwritten : writtenEdits (es ++ [.read t contents]) = writtenEdits es := by
    simp [writtenEdits]
  refine ⟨h.holder,?_,?_,h.emptied,h.reading⟩
  · rw [htaken, hwritten]
    exact h.order
  · rw [hwritten]
    exact h.current

/-- What the holder of the mutex has not written is all that is missing. -/
theorem SnapshotOk.order_of_holder (h : SnapshotOk initial s es) (hmutex : s.mutex = some t) :
    takenEdits es = writtenEdits es ++ unwritten (s.threads t) := by
  simpa [pendingEdit, hmutex] using h.order

section
variable [DecidableEq ι] {s : State ι} {es : List (Event ι)}

@[simp] theorem setThread_self (s : State ι) (t : ι) (phase : Phase) :
    (setThread s t phase).threads t = phase := by simp [setThread]

theorem setThread_ne (s : State ι) (phase : Phase) (h : u ≠ t) :
    (setThread s t phase).threads u = s.threads u := by simp [setThread, h]

/-- A thread without the mutex goes on to where it does not have it either. -/
theorem SnapshotOk.outside (h : SnapshotOk initial s es)
    (hbefore : holdsMutex (s.threads t) = false) (hafter : holdsMutex phase = false)
    (hreading : ∀ contents, phase = .reading contents → contents <+: s.contents) :
    SnapshotOk initial (setThread s t phase) es := by
  have hpending : pendingEdit (setThread s t phase) = pendingEdit s := by
    unfold pendingEdit
    congr 1
    funext u
    by_cases hu : u = t
    · subst hu
      rw [setThread_self, unwritten_outside hbefore, unwritten_outside hafter]
    · rw [setThread_ne s phase hu]
  have htruncated : ∀ u, truncated ((setThread s t phase).threads u) = truncated (s.threads u) := by
    intro u
    by_cases hu : u = t
    · subst hu
      rw [setThread_self, truncated_outside hbefore, truncated_outside hafter]
    · rw [setThread_ne s phase hu]
  constructor
  · intro u hu
    by_cases hut : u = t
    · subst hut
      rw [setThread_self, hafter] at hu
      contradiction
    · rw [setThread_ne s phase hut] at hu
      exact h.holder u hu
  · rw [hpending]
    exact h.order
  · intro hwhole
    exact h.current (fun u => htruncated u ▸ hwhole u)
  · intro u hu
    rw [htruncated] at hu
    exact h.emptied u hu
  · intro u contents hu
    by_cases hut : u = t
    · subst hut
      rw [setThread_self] at hu
      exact hreading contents hu
    · rw [setThread_ne s phase hut] at hu
      exact h.reading u contents hu

/-- A step of the thread that takes, has, or gives up the mutex. It may change the file. -/
theorem SnapshotOk.inside (h : SnapshotOk initial s es) (file : Option Bytes)
    (mutex : Option ι) (phase : Phase) (ht : s.mutex = some t ∨ s.mutex = none)
    (hmutex : mutex = some t ∨ mutex = none ∧ holdsMutex phase = false)
    (horder : takenEdits (es ++ x) = writtenEdits (es ++ x) ++ unwritten phase)
    (hcurrent : truncated phase = false →
      file.getD [] = contentsAfter (initial.getD []) (writtenEdits (es ++ x)))
    (hemptied : truncated phase = true → file = some [])
    (hreading : ∀ contents, phase ≠ .reading contents)
    (hothers : ∀ u contents, u ≠ t → s.threads u = .reading contents → contents <+: file.getD []) :
    SnapshotOk initial (setThread { s with file := file, mutex := mutex } t phase) (es ++ x) := by
  have hother : ∀ u, u ≠ t →
      (setThread { s with file := file, mutex := mutex } t phase).threads u = s.threads u :=
    fun u hu => setThread_ne _ _ hu
  constructor
  · intro u hu
    by_cases hut : u = t
    · subst hut
      rw [setThread_self] at hu
      rcases hmutex with hmutex | ⟨-,hnot⟩
      · exact hmutex
      · rw [hnot] at hu
        contradiction
    · rw [hother u hut, h.others ht hut] at hu
      contradiction
  · rw [horder]
    congr 1
    rcases hmutex with rfl | ⟨rfl,hnot⟩
    · simp [pendingEdit, setThread]
    · simp [pendingEdit, setThread, unwritten_outside hnot]
  · intro hwhole
    have hphase := hwhole t
    rw [setThread_self] at hphase
    exact hcurrent hphase
  · intro u hu
    by_cases hut : u = t
    · subst hut
      rw [setThread_self] at hu
      exact hemptied hu
    · rw [hother u hut, truncated_outside (h.others ht hut)] at hu
      contradiction
  · intro u contents hu
    by_cases hut : u = t
    · subst hut
      rw [setThread_self] at hu
      exact absurd hu (hreading contents)
    · rw [hother u hut] at hu
      exact hothers u contents hut hu

/-- While nobody but `t` can have emptied the file, and `t` has not, the file is whole. -/
theorem SnapshotOk.whole (h : SnapshotOk initial s es) (ht : s.mutex = some t ∨ s.mutex = none)
    (hphase : truncated (s.threads t) = false) :
    s.contents = contentsAfter (initial.getD []) (writtenEdits es) := by
  apply h.current
  intro u
  by_cases hu : u = t
  · subst hu
    exact hphase
  · exact truncated_outside (h.others ht hu)

/-- The one write of a call completes it. -/
theorem SnapshotOk.write_contents (h : SnapshotOk initial s es)
    (hphase : s.threads t = .writing edit) :
    writeWithMode edit s.contents =
      contentsAfter (initial.getD []) (writtenEdits es ++ [edit]) := by
  have hmutex : s.mutex = some t := h.holder t (by rw [hphase]; rfl)
  rw [contentsAfter_snoc]
  cases edit with
  | append entry =>
    have hwhole := h.whole (t := t) (.inl hmutex) (by rw [hphase]; rfl)
    rw [← hwhole]
    rfl
  | replace str =>
    have hemptied := h.emptied t (by rw [hphase]; rfl)
    simp [writeWithMode, State.contents, hemptied, applyEdit]

theorem SnapshotOk.lock (h : SnapshotOk initial s es) (hphase : s.threads t = .locking edit)
    (hmutex : s.mutex = none) :
    SnapshotOk initial (setThread { s with mutex := some t } t (.opening edit))
      (es ++ [.took edit]) := by
  have hwhole := h.whole (t := t) (.inr hmutex) (by rw [hphase]; rfl)
  have horder : takenEdits es = writtenEdits es := by simpa [pendingEdit, hmutex] using h.order
  refine h.inside s.file (some t) (.opening edit) (.inr hmutex) (.inl rfl) ?_ ?_ ?_ (by simp) ?_
  · rw [taken_append, written_append, horder]
    simp [takenEdits, writtenEdits, unwritten]
  · intro _
    have hnone : writtenEdits [(.took edit : Event ι)] = [] := rfl
    rw [written_append, hnone, List.append_nil]
    exact hwhole
  · intro htruncated
    contradiction
  · intro u contents _ hreading
    exact h.reading u contents hreading

theorem SnapshotOk.openForWriting (h : SnapshotOk initial s es)
    (hphase : s.threads t = .opening edit) (hok : readsApart s (.openForWriting t)) :
    SnapshotOk initial
      (setThread { s with file := some (openMode edit s.contents) } t (.writing edit)) es := by
  have hmutex : s.mutex = some t := h.holder t (by rw [hphase]; rfl)
  have hwhole := h.whole (.inl hmutex) (by rw [hphase]; rfl)
  have horder := h.order_of_holder hmutex
  rw [hphase] at horder
  have hinside := h.inside (x := []) (some (openMode edit s.contents)) s.mutex (.writing edit)
    (.inl hmutex) (.inl hmutex)
  rw [List.append_nil] at hinside
  refine hinside horder ?_ ?_ (by simp) ?_
  · intro htruncated
    cases edit with
    | append entry => exact hwhole
    | replace str => contradiction
  · intro htruncated
    cases edit with
    | append entry => contradiction
    | replace str => rfl
  · intro u contents _ hreading
    refine prefix_openMode (h.reading u contents hreading) ?_
    rintro str rfl
    exact hok str hphase u contents hreading

theorem SnapshotOk.write (h : SnapshotOk initial s es) (hphase : s.threads t = .writing edit) :
    SnapshotOk initial
      (setThread { s with file := some (writeWithMode edit s.contents) } t .closing)
      (es ++ [.wrote edit]) := by
  have hmutex : s.mutex = some t := h.holder t (by rw [hphase]; rfl)
  have horder := h.order_of_holder hmutex
  rw [hphase] at horder
  refine h.inside (some (writeWithMode edit s.contents)) s.mutex .closing (.inl hmutex)
    (.inl hmutex) ?_ ?_ ?_ (by simp) ?_
  · rw [taken_append, written_append, horder]
    simp [takenEdits, writtenEdits, unwritten]
  · intro _
    rw [written_append]
    exact h.write_contents hphase
  · intro htruncated
    contradiction
  · intro u contents _ hreading
    refine prefix_writeWithMode (h.reading u contents hreading) ?_
    rintro str rfl
    rw [State.contents, h.emptied t (by rw [hphase]; rfl)]
    rfl

theorem SnapshotOk.unlock (h : SnapshotOk initial s es) (hphase : s.threads t = .closing) :
    SnapshotOk initial (setThread { s with mutex := none } t .idle) es := by
  have hmutex : s.mutex = some t := h.holder t (by rw [hphase]; rfl)
  have hwhole := h.whole (.inl hmutex) (by rw [hphase]; rfl)
  have horder := h.order_of_holder hmutex
  rw [hphase] at horder
  have hinside := h.inside (x := []) s.file none .idle (.inl hmutex) (.inr ⟨rfl,rfl⟩)
  rw [List.append_nil] at hinside
  refine hinside horder ?_ ?_ (by simp) ?_
  · intro _
    exact hwhole
  · intro htruncated
    contradiction
  · intro u contents _ hreading
    exact h.reading u contents hreading

/-- What a step can do. -/
inductive LogStep (s : State ι) : Move ι → State ι → List (Event ι) → Prop
  | calls (t : ι) (edit : Edit) (h : s.threads t = .idle) :
      LogStep s (.call t edit) (setThread s t (.locking edit)) []
  | locks (t : ι) (edit : Edit) (h : s.threads t = .locking edit) (hmutex : s.mutex = none) :
      LogStep s (.lock t) (setThread { s with mutex := some t } t (.opening edit)) [.took edit]
  | opens (t : ι) (edit : Edit) (h : s.threads t = .opening edit) :
      LogStep s (.openForWriting t)
        (setThread { s with file := some (openMode edit s.contents) } t (.writing edit)) []
  | writes (t : ι) (edit : Edit) (h : s.threads t = .writing edit) :
      LogStep s (.write t)
        (setThread { s with file := some (writeWithMode edit s.contents) } t .closing)
        [.wrote edit]
  | unlocks (t : ι) (h : s.threads t = .closing) :
      LogStep s (.unlock t) (setThread { s with mutex := none } t .idle) []
  | reads (t : ι) (h : s.threads t = .idle) :
      LogStep s (.openForReading t) (setThread s t (.reading [])) []
  | findsNone (t : ι) (h : s.threads t = .idle) (hfile : s.file = none) :
      LogStep s (.openForReading t) s [.read t []]
  | goesOn (t : ι) (count : Nat) (contents : Bytes) (h : s.threads t = .reading contents)
      (hcount : 0 < count) (hchunk : (s.contents.drop contents.length).take count ≠ []) :
      LogStep s (.readSome t count) (setThread s t
        (.reading (contents ++ (s.contents.drop contents.length).take count))) []
  | returns (t : ι) (count : Nat) (contents : Bytes) (h : s.threads t = .reading contents)
      (hcount : 0 < count) (hchunk : (s.contents.drop contents.length).take count = []) :
      LogStep s (.readSome t count) (setThread s t .idle) [.read t contents]

theorem logStep_of_step (hs : step s move = some (t,x)) : LogStep s move t x := by
  cases move with
  | call u edit =>
    simp only [step, Option.ite_none_right_eq_some, Option.some.injEq, Prod.mk.injEq] at hs
    obtain ⟨hphase,rfl,rfl⟩ := hs
    exact .calls u edit hphase
  | lock u =>
    simp only [step] at hs
    split at hs
    · cases hs
      exact .locks u _ ‹_› ‹_›
    · contradiction
  | openForWriting u =>
    simp only [step] at hs
    split at hs
    · cases hs
      exact .opens u _ ‹_›
    · contradiction
  | write u =>
    simp only [step] at hs
    split at hs
    · cases hs
      exact .writes u _ ‹_›
    · contradiction
  | unlock u =>
    simp only [step, Option.ite_none_right_eq_some, Option.some.injEq, Prod.mk.injEq] at hs
    obtain ⟨hphase,rfl,rfl⟩ := hs
    exact .unlocks u hphase
  | openForReading u =>
    simp only [step, Option.ite_none_right_eq_some] at hs
    obtain ⟨hphase,hs⟩ := hs
    split at hs
    · cases hs
      exact .reads u hphase
    · rename_i hfile
      cases hs
      exact .findsNone u hphase (by simpa using hfile)
  | readSome u count =>
    simp only [step] at hs
    split at hs
    · rename_i contents hphase
      simp only [Option.ite_none_right_eq_some] at hs
      obtain ⟨hcount,hs⟩ := hs
      split at hs
      · rename_i hchunk
        cases hs
        exact .returns u count contents hphase hcount hchunk
      · rename_i hchunk
        cases hs
        exact .goesOn u count contents hphase hcount hchunk
    · contradiction

theorem LogStep.events (hs : LogStep s move t x) : x.length ≤ 1 := by
  cases hs <;> simp

theorem LogStep.snapshotOk (hs : LogStep s move t x) (h : SnapshotOk initial s es)
    (hok : readsApart s move) : SnapshotOk initial t (es ++ x) := by
  cases hs with
  | calls u edit hphase =>
    rw [List.append_nil]
    exact h.outside (by rw [hphase]; rfl) rfl (by simp)
  | locks u edit hphase hmutex => exact h.lock hphase hmutex
  | opens u edit hphase =>
    rw [List.append_nil]
    exact h.openForWriting hphase hok
  | writes u edit hphase => exact h.write hphase
  | unlocks u hphase =>
    rw [List.append_nil]
    exact h.unlock hphase
  | reads u hphase =>
    rw [List.append_nil]
    apply h.outside (by rw [hphase]; rfl) rfl
    rintro contents ⟨⟩
    exact List.nil_prefix
  | findsNone u hphase hfile => exact h.returned u []
  | goesOn u count contents hphase hcount hchunk =>
    rw [List.append_nil]
    apply h.outside (by rw [hphase]; rfl) rfl
    rintro read ⟨⟩
    exact prefix_chunk (h.reading u contents hphase) count
  | returns u count contents hphase hcount hchunk =>
    have hidle : SnapshotOk initial (setThread s u .idle) es :=
      h.outside (by rw [hphase]; rfl) rfl (by simp)
    exact hidle.returned u contents

/-- What is returned has been read to the end of a file that is whole. -/
theorem LogStep.readsSnapshot (hs : LogStep s move t x) (h : SnapshotOk initial s es)
    (hok : readsApart s move) : ∀ e ∈ x, ReadsSnapshot initial e es := by
  intro e he
  cases hs with
  | locks | writes =>
    rw [List.mem_singleton.mp he]
    intro u contents hread
    contradiction
  | findsNone u hphase hfile =>
    have hempty : s.contents = [] := by simp [State.contents, hfile]
    rw [List.mem_singleton.mp he, ← hempty]
    exact h.snapshot (h.whole_of_none hfile)
  | returns u count contents hphase hcount hchunk =>
    rw [List.mem_singleton.mp he, chunk_nil (h.reading u contents hphase) hcount hchunk]
    exact h.snapshot hok
  | calls | opens | unlocks | reads | goesOn => contradiction

theorem snapshotOk_start (initial : Option Bytes) :
    SnapshotOk initial (logFile ι initial).start [] := by
  constructor
  · intro t ht
    contradiction
  · rfl
  · intro _
    rfl
  · intro t ht
    contradiction
  · intro t contents hreading
    contradiction

end

/-- A log read is a consistent snapshot, as long as no `replace` gets between its steps, nor
it between those of a `replace`. -/
theorem reads_are_snapshots [DecidableEq ι] (initial : Option Bytes)
    (hr : (logFile ι initial).Reach (fun _ => readsApart) s es) :
    Preceded (ReadsSnapshot initial) es := by
  have hboth : SnapshotOk initial s es ∧ Preceded (ReadsSnapshot initial) es := by
    induction hr with
    | start => exact ⟨snapshotOk_start initial,.nil⟩
    | step hr hok hs ih =>
      have hstep := logStep_of_step hs
      exact ⟨hstep.snapshotOk ih.1 hok,
        ih.2.append_one hstep.events (hstep.readsSnapshot ih.1 hok)⟩
  exact hboth.2

/-- One thread replaces the one entry of the log by another; a second one reads in the middle. -/
def readInTheMiddle (t u : ι) : List (Move ι) :=
  [.call t (.replace [0x62,0x0A]),.lock t,.openForWriting t,.openForReading u,.readSome u 10]

theorem readInTheMiddle_end : ((logFile (Fin 2) (some [0x61,0x0A])).follow (fun _ _ _ => true)
    (readInTheMiddle 0 1) (logFile (Fin 2) (some [0x61,0x0A])).start []).map (fun p => p.2) =
      some [.took (.replace [0x62,0x0A]),.read 1 []] := by
  decide

theorem read_not_snapshot : ¬ ∀ (s : State (Fin 2)) es,
    (logFile (Fin 2) (some [0x61,0x0A])).Reach Machine.free s es →
      Preceded (ReadsSnapshot (some [0x61,0x0A])) es := by
  intro h
  obtain ⟨s,es,hr,hes⟩ := Machine.exists_reach (fun _ _ _ _ => trivial) readInTheMiddle_end
  obtain ⟨k,hk,hcontents⟩ := h s es hr [.took (.replace [0x62,0x0A])] _ [] hes 1 [] rfl
  have hzero : k = 0 := Nat.le_zero.mp hk
  subst hzero
  contradiction

/-- One thread starts to read, another appends, the first reads on. -/
def readsWhileAppending (t u : ι) : List (Move ι) :=
  [.openForReading u,.call t (.append [0x62]),.lock t,.readSome u 10,.openForWriting t,.write t,
    .readSome u 1,.readSome u 10,.readSome u 10]

def readsApartTest (t u : ι) (s : State ι) : Move ι → Bool
  | .openForWriting v => s.threads v == .opening (.append [0x62])
  | .readSome _ _ => !truncated (s.threads t) && !truncated (s.threads u)
  | _ => true

theorem readsApart_of_test {s : State (Fin 2)} (h : readsApartTest 0 1 s move = true) :
    readsApart s move := by
  cases move with
  | openForWriting t =>
    intro str hphase
    simp only [readsApartTest, hphase] at h
    contradiction
  | readSome t count =>
    simp only [readsApartTest, Bool.and_eq_true, Bool.not_eq_true'] at h
    intro u
    match u with
    | 0 => exact h.1
    | 1 => exact h.2
  | call | lock | write | unlock | openForReading => trivial

theorem readsWhileAppending_end : ((logFile (Fin 2) (some [0x61,0x0A])).follow
    (fun _ => readsApartTest 0 1) (readsWhileAppending 0 1)
    (logFile (Fin 2) (some [0x61,0x0A])).start []).map (fun p => p.2) =
      some [.took (.append [0x62]),.wrote (.append [0x62]),.read 1 [0x61,0x0A,0x62,0x0A]] := by
  decide

theorem reads_are_snapshots_whileAppending : ∃ k, k ≤ 1 ∧
    [0x61,0x0A,0x62,0x0A] = contentsAfter [0x61,0x0A] (([.append [0x62]] : List Edit).take k) := by
  obtain ⟨s,es,hr,hes⟩ := Machine.exists_reach (fun _ _ _ => readsApart_of_test)
    readsWhileAppending_end
  exact reads_are_snapshots _ hr [.took (.append [0x62]),.wrote (.append [0x62])] _ [] hes 1 _ rfl

end Algorep.Proofs
