import Folio.Editor.Scheduler
import Mathlib.Data.List.Nodup
import Mathlib.Data.List.Range

/-!
# Runs of a scheduler

What happens to a scheduler happens in any order and any number of times: it is asked to compile a
text later or at once, or to wait no longer; a timer's sleep ends, also that of a timer that was
replaced or cancelled; a compilation ends with any result whatever; time passes.

* `Event`, `step` and `Possible` are these happenings;
* `Log` keeps what the state forgets: every compilation that was started, and every result that was
  shown;
* `Run window log s` says that a fresh scheduler can come to the state `s` with this log;
* `Sound` is the invariant of all runs that compilations and results keep, and `Timed` the one that
  timers keep.
-/

namespace Folio

namespace Compiled

/-- The tree of a compilation that succeeded. -/
def tree? : Compiled → Option Tree
  | .tree t => some t
  | .failed _ => none
  | .broken => none

/-- The failure of a compilation that did not succeed; a compiler that breaks down counts as one
that fails. -/
def failure? : Compiled → Option Failure
  | .tree _ => none
  | .failed f => some f
  | .broken => some Artifact.crash

theorem exists_tree {result : Compiled} (h : result.failure? = none) : ∃ t, result = .tree t := by
  cases result with
  | tree t => exact ⟨t, rfl⟩
  | failed f => cases h
  | broken => cases h

end Compiled

namespace Artifact

@[simp] theorem apply_generation (a : Artifact) (generation : Nat) (source : Text)
    (result : Compiled) : (a.apply generation source result).generation = generation := by
  cases result <;> rfl

@[simp] theorem apply_source (a : Artifact) (generation : Nat) (source : Text)
    (result : Compiled) : (a.apply generation source result).source = some source := by
  cases result <;> rfl

@[simp] theorem apply_error (a : Artifact) (generation : Nat) (source : Text)
    (result : Compiled) : (a.apply generation source result).error = result.failure? := by
  cases result <;> rfl

@[simp] theorem apply_tree (a : Artifact) (generation : Nat) (source : Text)
    (result : Compiled) : (a.apply generation source result).tree = result.tree?.or a.tree := by
  cases result <;> rfl

end Artifact

namespace Scheduler

/-! ### Events and runs -/

/-- What can happen to a scheduler. -/
inductive Event
  | notify (text : Text)
  | compileNow (text : Text)
  | cancel
  | wake (timer : Timer)
  | finish (job : Job) (result : Compiled)
  | tick (time : Nat)

/-- The scheduler after an event. -/
def step (s : Scheduler) : Event → Scheduler
  | .notify text => s.notify text
  | .compileNow text => s.compileNow text
  | .cancel => s.cancel
  | .wake timer => s.wake timer
  | .finish job result => s.finish job result
  | .tick time => { s with clock := s.clock + time }

/-- Whether an event can happen: only what sleeps wakes, and only what runs comes to an end. -/
def Possible (s : Scheduler) : Event → Prop
  | .wake timer => timer ∈ s.sleeping
  | .finish job _ => job ∈ s.running
  | _ => True

instance (s : Scheduler) : (e : Event) → Decidable (s.Possible e)
  | .wake timer => inferInstanceAs (Decidable (timer ∈ s.sleeping))
  | .finish job _ => inferInstanceAs (Decidable (job ∈ s.running))
  | .notify _ => isTrue trivial
  | .compileNow _ => isTrue trivial
  | .cancel => isTrue trivial
  | .tick _ => isTrue trivial

/-- The compilations that an event starts. -/
def launched (s : Scheduler) : Event → List Job
  | .compileNow text => [{ generation := s.started + 1, text }]
  | .wake timer =>
    if s.armed = some timer.id then [{ generation := s.started + 1, text := timer.text }] else []
  | _ => []

/-- The results that an event shows: that of a compilation at whose end the artifact changes its
generation. -/
def shown (s : Scheduler) : Event → List (Job × Compiled)
  | .finish job result =>
    if (s.finish job result).artifact.generation = s.artifact.generation then []
    else [(job, result)]
  | _ => []

/-- All compilations that were started and all results that were shown, in their order. -/
structure Log where
  launched : List Job := []
  shown : List (Job × Compiled) := []

/-- The log after an event. -/
def Log.add (log : Log) (s : Scheduler) (e : Event) : Log :=
  { launched := log.launched ++ s.launched e, shown := log.shown ++ s.shown e }

/-- The logs and the states that a fresh scheduler comes to. -/
inductive Run (window : Nat) : Log → Scheduler → Prop
  | fresh : Run window {} { window }
  | step {log : Log} {s : Scheduler} (e : Event) :
      Run window log s → s.Possible e → Run window (log.add s e) (s.step e)

theorem wake_of_armed {s : Scheduler} {t : Timer} (armed : s.armed = some t.id) :
    s.wake t = { s with sleeping := s.sleeping.erase t }.compileNow t.text := by
  simp [wake, armed]

theorem wake_of_not_armed {s : Scheduler} {t : Timer} (armed : s.armed ≠ some t.id) :
    s.wake t = { s with sleeping := s.sleeping.erase t } := by
  simp [wake, armed]

/-- The artifact that some results make, each shown after the one before. -/
def Log.artifact (log : Log) : Artifact :=
  log.shown.foldl (fun a p => a.apply p.1.generation p.1.text p.2) {}

/-! ### Compilations and results -/

/-- What holds of every run: which generations there are, which of them are running, and that the
artifact comes from the results that were shown. -/
structure Sound (log : Log) (s : Scheduler) : Prop where
  generations : log.launched.map Job.generation = List.range' 1 s.started
  running_sublist : s.running.Sublist log.launched
  shown_launched : ∀ p ∈ log.shown, p.1 ∈ log.launched
  artifact_eq : s.artifact = log.artifact
  generation_eq : s.artifact.generation = s.applied
  applied_le : s.applied ≤ s.started
  running_ne : ∀ j ∈ s.running, j.generation ≠ s.applied
  count : log.shown.length + s.discarded + s.running.length = s.started

namespace Sound

variable {log : Log} {s : Scheduler}

/-- Two compilations of one generation are the same. -/
theorem launched_inj (h : Sound log s) {j k : Job} (hj : j ∈ log.launched)
    (hk : k ∈ log.launched) (e : j.generation = k.generation) : j = k := by
  have nodup : (log.launched.map Job.generation).Nodup := by
    rw [h.generations]
    exact List.nodup_range'
  exact List.inj_on_of_nodup_map nodup hj hk e

theorem launched_le (h : Sound log s) {j : Job} (hj : j ∈ log.launched) :
    1 ≤ j.generation ∧ j.generation ≤ s.started := by
  have mem : j.generation ∈ List.range' 1 s.started := by
    rw [← h.generations]
    exact List.mem_map_of_mem hj
  rw [List.mem_range'_1] at mem
  omega

theorem running_le (h : Sound log s) {j : Job} (hj : j ∈ s.running) :
    1 ≤ j.generation ∧ j.generation ≤ s.started :=
  h.launched_le (h.running_sublist.subset hj)

theorem running_nodup (h : Sound log s) : s.running.Nodup := by
  have nodup : (log.launched.map Job.generation).Nodup := by
    rw [h.generations]
    exact List.nodup_range'
  exact (List.Nodup.of_map _ nodup).sublist h.running_sublist

theorem fresh (window : Nat) : Sound {} { window } where
  generations := rfl
  running_sublist := List.Sublist.refl _
  shown_launched := by simp
  artifact_eq := rfl
  generation_eq := rfl
  applied_le := Nat.le_refl _
  running_ne := by simp
  count := rfl

theorem start (h : Sound log s) (text : Text) :
    Sound { log with launched := log.launched ++ [{ generation := s.started + 1, text }] }
      (s.start text) where
  generations := by
    rw [List.map_append, h.generations]
    simp [Scheduler.start, List.range'_concat, Nat.add_comm]
  running_sublist := h.running_sublist.append_right _
  shown_launched p hp := List.mem_append_left _ (h.shown_launched p hp)
  artifact_eq := h.artifact_eq
  generation_eq := h.generation_eq
  applied_le := Nat.le_succ_of_le h.applied_le
  running_ne j hj := by
    rcases List.mem_append.1 hj with hj | hj
    · exact h.running_ne j hj
    · rw [List.mem_singleton.1 hj]
      exact Nat.ne_of_gt (Nat.lt_succ_of_le h.applied_le)
  count := by
    have := h.count
    simp only [Scheduler.start, List.length_append, List.length_singleton]
    omega

/-- A running compilation is the newest one exactly if the artifact takes its generation when it
ends. -/
theorem generation_finish (h : Sound log s) {j : Job} (hj : j ∈ s.running) (result : Compiled) :
    (s.finish j result).artifact.generation = s.artifact.generation ↔ j.generation ≠ s.started := by
  have le := (h.running_le hj).2
  by_cases lt : j.generation < s.started
  · simp [Scheduler.finish, lt, Nat.ne_of_lt lt]
  · have eq : j.generation = s.started := by omega
    have ne := h.running_ne j hj
    simp only [Scheduler.finish, if_neg lt, Artifact.apply_generation, h.generation_eq]
    exact ⟨fun e => absurd e ne, fun e => absurd eq e⟩

/-- The end of a compilation that is not the newest one. -/
theorem finish_stale (h : Sound log s) {j : Job} (hj : j ∈ s.running)
    (ne : j.generation ≠ s.started) (result : Compiled) :
    s.finish j result =
      { s with running := s.running.erase j, discarded := s.discarded + 1 } := by
  have lt : j.generation < s.started := by
    have := (h.running_le hj).2
    omega
  simp [Scheduler.finish, lt]

/-- The end of the newest compilation. -/
theorem finish_newest {j : Job} (eq : j.generation = s.started) (result : Compiled) :
    s.finish j result =
      { s with
        running := s.running.erase j, applied := j.generation
        artifact := s.artifact.apply j.generation j.text result } := by
  simp [Scheduler.finish, eq]

theorem finish (h : Sound log s) {j : Job} (hj : j ∈ s.running) (result : Compiled) :
    Sound { log with shown := log.shown ++ s.shown (.finish j result) } (s.finish j result) := by
  have sub : (s.running.erase j).Sublist log.launched :=
    List.erase_sublist.trans h.running_sublist
  have count := h.count
  have length := List.length_erase_of_mem hj
  have pos := List.length_pos_of_mem hj
  by_cases eq : j.generation = s.started
  · have shown : s.shown (.finish j result) = [(j, result)] := by
      simp only [Scheduler.shown, h.generation_finish hj result, eq, ne_eq, not_true, if_false]
    rw [shown, finish_newest eq]
    refine ⟨h.generations, sub, ?_, ?_, Artifact.apply_generation .., Nat.le_of_eq eq, ?_, ?_⟩
    · intro p hp
      rcases List.mem_append.1 hp with hp | hp
      · exact h.shown_launched p hp
      · rw [List.mem_singleton.1 hp]
        exact h.running_sublist.subset hj
    · simp [Log.artifact, h.artifact_eq]
    · -- the compilation that has ended was the only one of its generation
      intro k hk e
      have mem := List.mem_of_mem_erase hk
      have same := h.launched_inj (h.running_sublist.subset mem) (h.running_sublist.subset hj) e
      exact h.running_nodup.not_mem_erase (same ▸ hk)
    · simp only [List.length_append, List.length_singleton]
      omega
  · have shown : s.shown (.finish j result) = [] := by
      simp only [Scheduler.shown, (h.generation_finish hj result).2 eq, if_true]
    rw [shown, h.finish_stale hj eq, List.append_nil]
    refine ⟨h.generations, sub, h.shown_launched, h.artifact_eq, h.generation_eq, h.applied_le,
      fun k hk => h.running_ne k (List.mem_of_mem_erase hk), ?_⟩
    simp only
    omega

/-- Timers and the clock are of no matter to compilations and their results. -/
theorem timers (h : Sound log s) (clock : Nat) (armed : Option Nat) (timers : Nat)
    (sleeping : List Timer) :
    Sound log { s with clock, armed, timers, sleeping } :=
  ⟨h.generations, h.running_sublist, h.shown_launched, h.artifact_eq, h.generation_eq,
    h.applied_le, h.running_ne, h.count⟩

theorem wake (h : Sound log s) (t : Timer) :
    Sound { log with launched := log.launched ++ s.launched (.wake t) } (s.wake t) := by
  by_cases armed : s.armed = some t.id
  · rw [wake_of_armed armed]
    simp only [Scheduler.launched, if_pos armed]
    exact (h.timers s.clock none s.timers (s.sleeping.erase t)).start t.text
  · rw [wake_of_not_armed armed]
    simp only [Scheduler.launched, if_neg armed, List.append_nil]
    exact h.timers s.clock s.armed s.timers (s.sleeping.erase t)

theorem step (h : Sound log s) {e : Event} (possible : s.Possible e) :
    Sound (log.add s e) (s.step e) := by
  cases e with
  | notify text =>
    simp only [Log.add, Scheduler.launched, Scheduler.shown, List.append_nil]
    exact h.timers ..
  | compileNow text =>
    simp only [Log.add, Scheduler.shown, List.append_nil]
    exact (h.timers s.clock none s.timers s.sleeping).start text
  | cancel =>
    simp only [Log.add, Scheduler.launched, Scheduler.shown, List.append_nil]
    exact h.timers ..
  | wake t =>
    simp only [Log.add, Scheduler.shown, List.append_nil]
    exact h.wake t
  | finish j result =>
    simp only [Log.add, Scheduler.launched, List.append_nil]
    exact h.finish possible result
  | tick time =>
    simp only [Log.add, Scheduler.launched, Scheduler.shown, List.append_nil]
    exact h.timers ..

end Sound

/-! ### Timers -/

/-- What holds of the timers in every run: their numbers differ, and the armed one sleeps. -/
structure Timed (s : Scheduler) : Prop where
  id_le : ∀ t ∈ s.sleeping, t.id ≤ s.timers
  id_inj : ∀ t ∈ s.sleeping, ∀ u ∈ s.sleeping, t.id = u.id → t = u
  armed_sleeping : ∀ id, s.armed = some id → ∃ t ∈ s.sleeping, t.id = id

namespace Timed

variable {s : Scheduler}

theorem fresh (window : Nat) : Timed { window } where
  id_le := by simp
  id_inj := by simp
  armed_sleeping := by simp

theorem notify (h : Timed s) (text : Text) : Timed (s.notify text) where
  id_le t ht := by
    rcases List.mem_append.1 ht with ht | ht
    · exact Nat.le_succ_of_le (h.id_le t ht)
    · rw [List.mem_singleton.1 ht]
      exact Nat.le_refl _
  id_inj t ht u hu e := by
    rcases List.mem_append.1 ht with ht | ht <;> rcases List.mem_append.1 hu with hu | hu
    · exact h.id_inj t ht u hu e
    · have := h.id_le t ht
      rw [List.mem_singleton.1 hu] at e
      simp only at e
      omega
    · have := h.id_le u hu
      rw [List.mem_singleton.1 ht] at e
      simp only at e
      omega
    · rw [List.mem_singleton.1 ht, List.mem_singleton.1 hu]
  armed_sleeping id e := by
    refine ⟨_, List.mem_append_right _ (List.mem_singleton_self _), ?_⟩
    exact Option.some.inj e

/-- Nothing is armed any more. -/
theorem disarm (h : Timed s) : Timed s.cancel where
  id_le := h.id_le
  id_inj := h.id_inj
  armed_sleeping := by simp [cancel]

/-- A timer that is not armed is gone. -/
theorem erase (h : Timed s) {t : Timer} (ht : s.armed ≠ some t.id) :
    Timed { s with sleeping := s.sleeping.erase t } where
  id_le u hu := h.id_le u (List.mem_of_mem_erase hu)
  id_inj u hu v hv := h.id_inj u (List.mem_of_mem_erase hu) v (List.mem_of_mem_erase hv)
  armed_sleeping id e := by
    obtain ⟨u, hu, rfl⟩ := h.armed_sleeping id e
    refine ⟨u, (List.mem_erase_of_ne ?_).2 hu, rfl⟩
    rintro rfl
    exact ht e

/-- Compilations and the clock are of no matter to timers. -/
theorem jobs (h : Timed s) (clock started applied discarded : Nat) (artifact : Artifact)
    (running : List Job) :
    Timed { s with clock, started, applied, discarded, artifact, running } :=
  ⟨h.id_le, h.id_inj, h.armed_sleeping⟩

theorem wake (h : Timed s) (t : Timer) : Timed (s.wake t) := by
  by_cases armed : s.armed = some t.id
  · rw [wake_of_armed armed]
    exact ⟨fun u hu => h.id_le u (List.mem_of_mem_erase hu),
      fun u hu v hv => h.id_inj u (List.mem_of_mem_erase hu) v (List.mem_of_mem_erase hv),
      by simp [compileNow, cancel, start]⟩
  · rw [wake_of_not_armed armed]
    exact h.erase armed

theorem finish (h : Timed s) (j : Job) (result : Compiled) : Timed (s.finish j result) := by
  by_cases lt : j.generation < s.started
  · simp only [Scheduler.finish, if_pos lt]
    exact h.jobs ..
  · simp only [Scheduler.finish, if_neg lt]
    exact h.jobs ..

theorem step (h : Timed s) (e : Event) : Timed (s.step e) := by
  cases e with
  | notify text => exact h.notify text
  | compileNow text => exact h.disarm.jobs ..
  | cancel => exact h.disarm
  | wake t => exact h.wake t
  | finish j result => exact h.finish j result
  | tick time => exact h.jobs ..

end Timed

/-! ### Every run -/

theorem Run.sound {window : Nat} {log : Log} {s : Scheduler} (run : Run window log s) :
    Sound log s := by
  induction run with
  | fresh => exact Sound.fresh window
  | step e _ possible ih => exact ih.step possible

theorem Run.timed {window : Nat} {log : Log} {s : Scheduler} (run : Run window log s) :
    Timed s := by
  induction run with
  | fresh => exact Timed.fresh window
  | step e _ _ ih => exact ih.step e

end Scheduler
end Folio
