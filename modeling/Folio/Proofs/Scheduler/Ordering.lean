import Folio.Proofs.Scheduler.Run

/-!
# Only the newest compilation is shown

Compilations end in any order, fail, and are overtaken by others. Main statement: in every run the
artifact is that of one compilation, its generation never goes back, and a result is shown exactly
if no newer compilation has started; all other results are counted as discarded.
-/

namespace Folio.Scheduler

/-- The trees among the results that were shown. -/
def Log.trees (log : Log) : List Tree := log.shown.filterMap (·.2.tree?)

/-- An artifact is about one compilation that was started: it has the generation and the text of
that compilation, its failure if it failed, and its tree if it did not. -/
structure IsAbout (a : Artifact) (job : Job) (result : Compiled) : Prop where
  generation_eq : a.generation = job.generation
  source_eq : a.source = some job.text
  error_eq : a.error = result.failure?
  tree_eq : a.error = none → ∃ t, result = .tree t ∧ a.tree = some t

namespace Log

theorem artifact_append (log : Log) (job : Job) (result : Compiled) :
    Log.artifact { log with shown := log.shown ++ [(job, result)] } =
      log.artifact.apply job.generation job.text result := by
  simp [artifact]

/-- The artifact has the tree of the last compilation that succeeded, if there is one. -/
theorem artifact_tree (log : Log) : log.artifact.tree = log.trees.getLast? := by
  obtain ⟨launched, shown⟩ := log
  induction shown using List.reverseRecOn with
  | nil => rfl
  | append_singleton shown p ih =>
    obtain ⟨job, result⟩ := p
    rw [artifact_append { launched, shown }, Artifact.apply_tree, ih]
    cases result <;> simp [trees, Compiled.tree?, List.filterMap_append]

/-- The artifact is about the last compilation whose result was shown. -/
theorem artifact_isAbout {log : Log} {job : Job} {result : Compiled}
    (last : log.shown.getLast? = some (job, result)) : IsAbout log.artifact job result := by
  obtain ⟨launched, shown⟩ := log
  obtain ⟨shown, rfl⟩ := List.getLast?_eq_some_iff.1 last
  rw [artifact_append { launched, shown }]
  refine ⟨by simp, by simp, by simp, fun none => ?_⟩
  obtain ⟨t, rfl⟩ := Compiled.exists_tree (by simpa using none)
  exact ⟨t, rfl, rfl⟩

end Log

variable {window : Nat} {log : Log} {s : Scheduler}

/-- A generation that was shown is never taken back. -/
theorem Sound.applied_le_step (h : Sound log s) (e : Event) (possible : s.Possible e) :
    s.applied ≤ (s.step e).applied := by
  cases e with
  | notify text => exact Nat.le_refl _
  | compileNow text => exact Nat.le_refl _
  | cancel => exact Nat.le_refl _
  | tick time => exact Nat.le_refl _
  | wake t =>
    by_cases armed : s.armed = some t.id
    · simp only [Scheduler.step, wake_of_armed armed]
      exact Nat.le_refl _
    · simp only [Scheduler.step, wake_of_not_armed armed]
      exact Nat.le_refl _
  | finish j result =>
    by_cases eq : j.generation = s.started
    · simp only [Scheduler.step, finish_newest eq, eq]
      exact h.applied_le
    · simp only [Scheduler.step, h.finish_stale possible eq]
      exact Nat.le_refl _

/-- The end of a compilation changes the artifact exactly if none was started after it. -/
theorem Sound.artifact_finish (h : Sound log s) {j : Job} (hj : j ∈ s.running)
    (result : Compiled) :
    (s.finish j result).artifact ≠ s.artifact ↔ j.generation = s.started := by
  constructor
  · intro ne
    by_contra stale
    rw [h.finish_stale hj stale] at ne
    exact ne rfl
  · intro eq same
    exact (h.generation_finish hj result).1 (congrArg Artifact.generation same) eq

/-- The artifact is settled once the result of any compilation has been shown. -/
theorem Sound.isSettled_iff (h : Sound log s) : s.artifact.isSettled = true ↔ log.shown ≠ [] := by
  rw [h.artifact_eq, Artifact.isSettled, decide_eq_true_eq]
  cases last : log.shown.getLast? with
  | none =>
    have nothing := List.getLast?_eq_none_iff.1 last
    rw [Log.artifact, nothing]
    exact iff_of_false (Nat.lt_irrefl 0) (absurd rfl)
  | some p =>
    obtain ⟨job, result⟩ := p
    have started := h.shown_launched _ (List.mem_of_getLast? last)
    rw [(Log.artifact_isAbout last).generation_eq]
    refine iff_of_true (h.launched_le started).1 fun nothing => ?_
    rw [nothing] at last
    cases last

/-- **Results are shown in order.** In every run: the artifact has the generation that was shown
last, which no event takes back; the end of a compilation changes the artifact exactly if it is
the newest one, and is discarded otherwise; every compilation is shown, discarded or running; and
the artifact is about one compilation, with the tree of the last one shown that succeeded. -/
theorem results_in_order (run : Run window log s) :
    (s.artifact.generation = s.applied ∧ s.applied ≤ s.started ∧
      ∀ e, s.Possible e → s.applied ≤ (s.step e).applied) ∧
    (∀ j ∈ s.running, ∀ result,
      ((s.finish j result).artifact ≠ s.artifact ↔ j.generation = s.started) ∧
      (j.generation ≠ s.started →
        s.finish j result =
          { s with running := s.running.erase j, discarded := s.discarded + 1 })) ∧
    log.shown.length + s.discarded + s.running.length = s.started ∧
    (log.shown = [] → s.artifact = {}) ∧
    (∀ job result, log.shown.getLast? = some (job, result) →
      job ∈ log.launched ∧ IsAbout s.artifact job result) ∧
    s.artifact.tree = log.trees.getLast? := by
  have h := run.sound
  refine ⟨⟨h.generation_eq, h.applied_le, h.applied_le_step⟩, ?_, h.count, ?_, ?_, ?_⟩
  · intro j hj result
    exact ⟨h.artifact_finish hj result, fun ne => h.finish_stale hj ne result⟩
  · intro none
    rw [h.artifact_eq, Log.artifact, none]
    rfl
  · intro job result last
    rw [h.artifact_eq]
    exact ⟨h.shown_launched _ (List.mem_of_getLast? last), Log.artifact_isAbout last⟩
  · rw [h.artifact_eq, Log.artifact_tree]

/-- A replaced timer wakes, and a slow compilation ends after a newer one. -/
theorem results_in_order_overtaken :
    ∃ log s, Run 10 log s ∧ s.artifact.source = some ['c'] ∧ s.discarded = 1 ∧
      log.launched = [{ generation := 1, text := ['b'] }, { generation := 2, text := ['c'] }] ∧
      log.shown.length + s.discarded + s.running.length = s.started := by
  have replaced : Run 10 _ _ :=
    ((Run.fresh.step (.notify ['a']) trivial).step (.notify ['b']) trivial).step
      (.wake { id := 1, due := 10, text := ['a'] }) (by decide)
  have compiling : Run 10 _ _ :=
    (replaced.step (.wake { id := 2, due := 10, text := ['b'] }) (by decide)).step
      (.compileNow ['c']) trivial
  have overtaken : Run 10 _ _ :=
    (compiling.step (.finish { generation := 2, text := ['c'] } .broken) (by decide)).step
      (.finish { generation := 1, text := ['b'] } (.tree { nodes := [], metadata := none }))
      (by decide)
  exact ⟨_, _, overtaken, rfl, rfl, rfl, (results_in_order overtaken).2.2.1⟩

end Folio.Scheduler
