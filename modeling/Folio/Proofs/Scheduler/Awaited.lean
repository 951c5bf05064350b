import Folio.Proofs.Scheduler.Ordering

/-!
# The text that is awaited

What a scheduler was asked last is either still on an armed timer or has become the newest
compilation. Main statements: timers and compilations that come to their end leave the awaited text
as it is, and an idle scheduler shows it.
-/

namespace Folio.Scheduler

/-- The text of the armed timer, or, when none is armed, that of the newest compilation. -/
def awaited (s : Scheduler) (log : Log) : Option Text :=
  match s.armed with
  | some id => (s.sleeping.find? (·.id == id)).map Timer.text
  | none => log.launched.getLast?.map Job.text

variable {log : Log} {s : Scheduler}

theorem Timed.find_sleeping (h : Timed s) {t : Timer} (ht : t ∈ s.sleeping) :
    s.sleeping.find? (·.id == t.id) = some t := by
  cases found : s.sleeping.find? (·.id == t.id) with
  | none =>
    have := List.find?_eq_none.1 found t ht
    simp at this
  | some u =>
    have same : u.id = t.id := by simpa using List.find?_some found
    rw [h.id_inj u (List.mem_of_find?_eq_some found) t ht same]

theorem awaited_notify (h : Timed s) (text : Text) :
    (s.notify text).awaited (log.add s (.notify text)) = some text := by
  have mem : { id := s.timers + 1, due := s.clock + s.window, text } ∈
      (s.notify text).sleeping := by
    simp [notify]
  have armed : (s.notify text).armed = some (s.timers + 1) := rfl
  rw [awaited, armed]
  simp only [(h.notify text).find_sleeping mem, Option.map_some]

theorem awaited_compileNow (text : Text) :
    (s.compileNow text).awaited (log.add s (.compileNow text)) = some text := by
  simp [awaited, compileNow, cancel, start, Log.add, launched]

theorem awaited_wake (h : Timed s) {t : Timer} (ht : t ∈ s.sleeping) :
    (s.wake t).awaited (log.add s (.wake t)) = s.awaited log := by
  by_cases armed : s.armed = some t.id
  · have before : s.awaited log = some t.text := by
      rw [awaited, armed]
      simp only [h.find_sleeping ht, Option.map_some]
    rw [before]
    rw [wake_of_armed armed]
    simp [awaited, armed, compileNow, cancel, start, Log.add, launched]
  · cases other : s.armed with
    | none =>
      rw [wake_of_not_armed armed]
      simp [awaited, other, Log.add, launched]
    | some id =>
      -- the armed timer goes on sleeping
      obtain ⟨u, hu, rfl⟩ := h.armed_sleeping id other
      have ne : u ≠ t := by
        rintro rfl
        exact armed other
      have mem : u ∈ s.sleeping.erase t := (List.mem_erase_of_ne ne).2 hu
      have after : (s.sleeping.erase t).find? (·.id == u.id) = some u :=
        (h.erase armed).find_sleeping mem
      rw [wake_of_not_armed armed]
      simp only [awaited, other, after, h.find_sleeping hu]

theorem awaited_finish (j : Job) (result : Compiled) :
    (s.finish j result).awaited (log.add s (.finish j result)) = s.awaited log := by
  by_cases lt : j.generation < s.started
  · simp [awaited, finish, lt, Log.add, launched]
  · simp [awaited, finish, lt, Log.add, launched]

theorem awaited_tick (time : Nat) :
    (s.step (.tick time)).awaited (log.add s (.tick time)) = s.awaited log := by
  simp [awaited, step, Log.add, launched]

/-- The newest compilation has the highest generation. -/
theorem Sound.generation_of_getLast? (h : Sound log s) {job : Job}
    (last : log.launched.getLast? = some job) : job.generation = s.started := by
  have generations : (log.launched.map Job.generation).getLast? = some job.generation := by
    rw [List.getLast?_map, last]
    rfl
  rw [h.generations, List.getLast?_range'] at generations
  split at generations
  · cases generations
  · have := Option.some.inj generations
    omega

/-- An idle scheduler that has started any compilation shows the newest one. -/
theorem Sound.shown_of_idle (h : Sound log s) (idle : s.phase = .idle) {job : Job}
    (last : log.launched.getLast? = some job) :
    s.armed = none ∧ s.artifact.generation = s.started ∧
      ∃ result, log.shown.getLast? = some (job, result) := by
  have newest := h.generation_of_getLast? last
  have launched := List.mem_of_getLast? last
  have armed : s.armed = none := by
    cases armed : s.armed with
    | none => rfl
    | some id => simp [phase, armed] at idle
  have applied : s.artifact.generation = s.started := by
    have le := h.applied_le
    have generation := h.generation_eq
    by_cases lt : s.applied < s.started
    · simp [phase, armed, lt] at idle
    · omega
  refine ⟨armed, applied, ?_⟩
  cases shown : log.shown.getLast? with
  | none =>
    -- nothing was shown, so the artifact has generation zero, and the newest one has not
    have empty : s.artifact.generation = 0 := by
      rw [h.artifact_eq, Log.artifact, List.getLast?_eq_none_iff.1 shown]
      rfl
    have := (h.launched_le launched).1
    omega
  | some p =>
    have generation : s.artifact.generation = p.1.generation := by
      rw [h.artifact_eq]
      exact (Log.artifact_isAbout shown).generation_eq
    have same : p.1 = job := by
      apply h.launched_inj (h.shown_launched p (List.mem_of_getLast? shown)) launched
      omega
    exact ⟨p.2, by rw [← same]⟩

end Folio.Scheduler
