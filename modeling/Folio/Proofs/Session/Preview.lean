import Folio.Proofs.Scheduler.Awaited
import Folio.Proofs.Session.Run

/-!
# The preview follows the text

Main statement: whatever an author does and however timers and compilations interleave, the text
that the scheduler has still to compile, or has compiled last, is the text of the session; so an
idle scheduler shows that text.
-/

namespace Folio.Session

variable {config : EditorConfig} {log : Scheduler.Log} {s : Session}

/-- After a request the scheduler awaits the text that the session then has. -/
theorem awaited_step (run : Run config log s) (e : Event) (possible : s.Possible e)
    (ih : s.scheduler.awaited log = some s.buffer.text) :
    (s.step e).scheduler.awaited (s.logged log e) = some (s.step e).buffer.text := by
  have timed := run.scheduler.timed
  rw [step_scheduler, logged]
  have changed (t : Session) :
      ((if t.buffer.text = s.buffer.text then none
        else some (.notify t.buffer.text) : Option Scheduler.Event).elim
          s.scheduler s.scheduler.step).awaited
        ((if t.buffer.text = s.buffer.text then none
          else some (.notify t.buffer.text) : Option Scheduler.Event).elim
          log (log.add s.scheduler)) = some t.buffer.text := by
    split
    · rename_i same
      rw [same]
      exact ih
    · exact Scheduler.awaited_notify timed t.buffer.text
  cases e with
  | refresh => exact Scheduler.awaited_compileNow s.buffer.text
  | wake timer => exact (Scheduler.awaited_wake timed possible).trans ih
  | finish job result => exact (Scheduler.awaited_finish job result).trans ih
  | tick time => exact (Scheduler.awaited_tick time).trans ih
  | input | select | flush | command | undo | redo | save | saveAs | upload | dismiss =>
    exact changed _

theorem Run.awaited (run : Run config log s) :
    s.scheduler.awaited log = some s.buffer.text := by
  refine Run.induct (motive := fun log s => s.scheduler.awaited log = some s.buffer.text)
    ?begins ?keeps run
  case begins =>
    intro target buffer capabilities _ _
    exact Scheduler.awaited_compileNow buffer.text
  case keeps =>
    intro log s e run ih possible
    exact awaited_step run e possible ih

/-- **The preview is never stale.** In every run of a session, the text on the armed timer, or the
text of the newest compilation when no timer is armed, is the text of the session. So when the
scheduler is idle, the artifact is about the newest compilation, which has read exactly the text of
the session: it has its failure if it failed, and the last good tree. -/
theorem preview_follows_text (run : Run config log s) :
    s.scheduler.awaited log = some s.buffer.text ∧
    (s.scheduler.phase = .idle →
      s.scheduler.artifact.source = some s.buffer.text ∧
      s.scheduler.artifact.generation = s.scheduler.started ∧
      s.scheduler.artifact.tree = log.trees.getLast? ∧
      ∃ result,
        log.shown.getLast? =
          some ({ generation := s.scheduler.started, text := s.buffer.text }, result) ∧
        Scheduler.IsAbout s.scheduler.artifact
          { generation := s.scheduler.started, text := s.buffer.text } result) := by
  have awaited := run.awaited
  refine ⟨awaited, fun idle => ?_⟩
  have sound := run.scheduler.sound
  have launched : ∃ job, log.launched.getLast? = some job := by
    cases last : log.launched.getLast? with
    | some job => exact ⟨job, rfl⟩
    | none =>
      -- an armed timer is all that could be awaited then
      cases armed : s.scheduler.armed with
      | none => simp [Scheduler.awaited, armed, last] at awaited
      | some id => simp [Scheduler.phase, armed] at idle
  obtain ⟨job, last⟩ := launched
  obtain ⟨armed, generation, result, shown⟩ := sound.shown_of_idle idle last
  have job_eq : job = { generation := s.scheduler.started, text := s.buffer.text } := by
    have text : some job.text = some s.buffer.text := by
      simpa [Scheduler.awaited, armed, last] using awaited
    rw [← sound.generation_of_getLast? last, ← Option.some.inj text]
  rw [job_eq] at shown
  have about : Scheduler.IsAbout s.scheduler.artifact _ result :=
    sound.artifact_eq ▸ Scheduler.Log.artifact_isAbout shown
  have tree : s.scheduler.artifact.tree = log.trees.getLast? := by
    rw [sound.artifact_eq, Scheduler.Log.artifact_tree]
  exact ⟨about.source_eq, generation, tree, result, shown, about⟩

/-- An author types and asks for a preview at once, which is compiled before the first one. -/
theorem preview_follows_text_refreshed :
    ∃ log s, Run { newDocumentTemplate := "a" } log s ∧ s.scheduler.phase = .idle ∧
      s.buffer.text = ['b'] ∧ s.scheduler.discarded = 1 ∧
      s.scheduler.artifact.source = some s.buffer.text := by
  have begun : Run { newDocumentTemplate := "a" } _ _ :=
    @Run.newDocument _ .empty _ rfl
  have refreshed : Run { newDocumentTemplate := "a" } _ _ :=
    (begun.step (.input ['b'] (.cursor 1) 0) trivial).step .refresh trivial
  have settled : Run { newDocumentTemplate := "a" } _ _ :=
    (refreshed.step (.finish { generation := 2, text := ['b'] } .broken) (by decide)).step
      (.finish { generation := 1, text := ['a'] } .broken) (by decide)
  exact ⟨_, _, settled, rfl, rfl, rfl, ((preview_follows_text settled).2 rfl).1⟩

end Folio.Session
