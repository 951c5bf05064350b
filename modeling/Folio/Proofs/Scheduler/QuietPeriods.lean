import Folio.Proofs.Scheduler.Awaited
import Mathlib.Data.Finset.Max
import Mathlib.Data.List.Chain

/-!
# One compilation for each quiet period

A clock that stops wherever a sleep is due: time passes up to the next due time, there the sleep
ends, and compilations end when they like. A scheduler is told texts and nothing else.

* `OnTime` are the events that can happen under such a clock, and `ClockRun window d s` says that a
  fresh scheduler comes to the state `s`, where `d` keeps when it was told which text and when it
  started which compilation;
* `lasting` are the calls that no other follows within the window;
* `OnSchedule` is the invariant: what was started belongs to the lasting calls, except the last one
  while its timer is armed;
* `launches_of_lasting`: when all sleeps have ended, each lasting call has been compiled, at the end
  of its window, and nothing else; when all compilations have ended, the last call is shown.
-/

namespace Folio.Scheduler

/-! ### Runs under a clock -/

/-- A text that the scheduler was told, and when. -/
structure Call where
  time : Nat
  text : Text
  deriving DecidableEq, Repr

/-- A compilation that was started, and when. -/
structure Launch where
  time : Nat
  job : Job
  deriving DecidableEq, Repr

/-- What was told and what was started, in their order. -/
structure Diary where
  calls : List Call := []
  launches : List Launch := []

/-- Whether an event can happen under a clock that stops wherever a sleep is due, when the scheduler
is only told texts. -/
def OnTime (s : Scheduler) : Event → Prop
  | .notify _ => True
  | .wake timer => timer ∈ s.sleeping ∧ timer.due ≤ s.clock
  | .finish job _ => job ∈ s.running
  | .tick time => ∀ timer ∈ s.sleeping, s.clock + time ≤ timer.due
  | .compileNow _ => False
  | .cancel => False

/-- What an event tells the scheduler. -/
def called (s : Scheduler) : Event → List Call
  | .notify text => [{ time := s.clock, text }]
  | _ => []

/-- The diary after an event. -/
def Diary.add (d : Diary) (s : Scheduler) (e : Event) : Diary where
  calls := d.calls ++ s.called e
  launches := d.launches ++ (s.launched e).map fun job => { time := s.clock, job }

/-- The diaries and the states that a fresh scheduler comes to under a clock. -/
inductive ClockRun (window : Nat) : Diary → Scheduler → Prop
  | fresh : ClockRun window {} { window }
  | step {d : Diary} {s : Scheduler} (e : Event) :
      ClockRun window d s → s.OnTime e → ClockRun window (d.add s e) (s.step e)

variable {window : Nat} {d : Diary} {s : Scheduler} {e : Event}

theorem OnTime.possible (onTime : s.OnTime e) : s.Possible e := by
  cases e with
  | wake timer => exact onTime.1
  | finish job result => exact onTime
  | notify | tick | compileNow | cancel => trivial

/-- A run under a clock is a run, of the same compilations. -/
theorem ClockRun.exists_run (run : ClockRun window d s) :
    ∃ log, Run window log s ∧ log.launched = d.launches.map Launch.job := by
  induction run with
  | fresh => exact ⟨{}, .fresh, rfl⟩
  | @step d s e _ onTime ih =>
    obtain ⟨log, run, launched⟩ := ih
    refine ⟨log.add s e, run.step e onTime.possible, ?_⟩
    simp [Log.add, Diary.add, launched, Function.comp_def]

/-! ### Calls that last -/

/-- The calls that no later one follows before the end of their window. -/
def lasting (window : Nat) : List Call → List Call
  | [] => []
  | c :: cs =>
    if cs.any (·.time < c.time + window) then lasting window cs else c :: lasting window cs

/-- The compilations of some calls: each at the end of its call's window, their generations
counted from one. -/
def launchesOf (window : Nat) (cs : List Call) : List Launch :=
  cs.mapIdx fun i c =>
    { time := c.time + window, job := { generation := i + 1, text := c.text } }

/-- No call comes at the very end of the window of the one before. -/
def Apart (window : Nat) (cs : List Call) : Prop :=
  cs.IsChain fun b c => c.time ≠ b.time + window

instance (window : Nat) (cs : List Call) : Decidable (Apart window cs) :=
  inferInstanceAs (Decidable (cs.IsChain _))

/-- One call more lasts, and ends the others whose window is running. -/
theorem lasting_concat (window : Nat) (cs : List Call) (c : Call) :
    lasting window (cs ++ [c]) =
      (lasting window cs).filter (fun b => b.time + window ≤ c.time) ++ [c] := by
  induction cs with
  | nil => rfl
  | cons b cs ih =>
    rw [List.cons_append, lasting, lasting, List.any_append, ih]
    by_cases followed : cs.any (·.time < b.time + window) = true
    · simp [followed]
    · by_cases running : c.time < b.time + window
      · simp [followed, running]
      · simp [followed, running, Nat.le_of_not_lt running]

theorem launchesOf_concat (window : Nat) (cs : List Call) (c : Call) :
    launchesOf window (cs ++ [c]) = launchesOf window cs ++
      [{ time := c.time + window, job := { generation := cs.length + 1, text := c.text } }] :=
  List.mapIdx_concat

/-! ### What a run keeps -/

/-- What was started belongs to lasting calls whose window has ended. When no timer is armed these
are all; when one is, it is that of the last call. -/
structure OnSchedule (window : Nat) (d : Diary) (s : Scheduler) : Prop where
  window_eq : s.window = window
  started_eq : s.started = d.launches.length
  due : ∀ t ∈ s.sleeping, s.clock ≤ t.due
  idle : s.armed = none → d.launches = launchesOf window (lasting window d.calls) ∧
    ∀ c ∈ lasting window d.calls, c.time + window ≤ s.clock
  armed : ∀ id ∈ s.armed, ∃ front c, lasting window d.calls = front ++ [c] ∧
    d.calls.getLast? = some c ∧ { id, due := c.time + window, text := c.text } ∈ s.sleeping ∧
    d.launches = launchesOf window front ∧ ∀ b ∈ front, b.time + window ≤ s.clock

namespace OnSchedule

theorem fresh (window : Nat) : OnSchedule window {} { window } where
  window_eq := rfl
  started_eq := rfl
  due := nofun
  idle _ := ⟨rfl, nofun⟩
  armed := nofun

/-- A call ends the window of the one before, unless that window had ended. -/
theorem notify (h : OnSchedule window d s) (text : Text)
    (apart : Apart window (d.add s (.notify text)).calls) :
    OnSchedule window (d.add s (.notify text)) (s.notify text) := by
  have launches : (d.add s (.notify text)).launches = d.launches := List.append_nil _
  have due : ∀ t ∈ (s.notify text).sleeping, s.clock ≤ t.due := by
    intro t mem
    rcases List.mem_append.1 mem with mem | mem
    · exact h.due t mem
    · rw [List.mem_singleton.1 mem]
      exact Nat.le_add_right ..
  -- what lasted before the call and lasts after it has been started
  obtain ⟨kept, lasts, started, ended⟩ : ∃ kept,
      (lasting window d.calls).filter (fun b => b.time + window ≤ s.clock) = kept ∧
        d.launches = launchesOf window kept ∧ ∀ b ∈ kept, b.time + window ≤ s.clock := by
    cases armed : s.armed with
    | none =>
      obtain ⟨started, ended⟩ := h.idle armed
      exact ⟨_, List.filter_eq_self.2 fun b mem => decide_eq_true (ended b mem), started, ended⟩
    | some id =>
      obtain ⟨front, c, parts, last, sleeping, started, ended⟩ := h.armed id armed
      have kept : front.filter (fun b => b.time + window ≤ s.clock) = front :=
        List.filter_eq_self.2 fun b mem => decide_eq_true (ended b mem)
      have running : ¬ c.time + window ≤ s.clock := by
        have ne := (List.isChain_append.1 apart).2.2 c last _ rfl
        exact fun le => ne (Nat.le_antisymm (h.due _ sleeping) le)
      refine ⟨front, ?_, started, ended⟩
      rw [parts, List.filter_append, kept, List.filter_cons_of_neg (by simpa using running)]
      exact List.append_nil front
  refine ⟨h.window_eq, by rw [launches]; exact h.started_eq, due, nofun, ?_⟩
  rintro _ ⟨⟩
  refine ⟨kept, { time := s.clock, text }, ?_, List.getLast?_concat, ?_, launches.trans started, ended⟩
  · rw [← lasts]
    exact lasting_concat window d.calls { time := s.clock, text }
  · rw [← h.window_eq]
    exact List.mem_append_right _ (List.mem_singleton_self _)

/-- The armed timer belongs to the last call, which has now been compiled. -/
theorem wake (h : OnSchedule window d s) (timed : Timed s) {t : Timer} (mem : t ∈ s.sleeping)
    (due : t.due ≤ s.clock) : OnSchedule window (d.add s (.wake t)) (s.wake t) := by
  have calls : (d.add s (.wake t)).calls = d.calls := List.append_nil _
  have later : ∀ u ∈ s.sleeping.erase t, s.clock ≤ u.due := fun u among =>
    h.due u (List.mem_of_mem_erase among)
  by_cases armed : s.armed = some t.id
  · obtain ⟨front, c, parts, last, sleeping, started, ended⟩ := h.armed t.id armed
    have same := timed.id_inj t mem _ sleeping rfl
    have text : t.text = c.text := congrArg Timer.text same
    have ends : t.due = c.time + window := congrArg Timer.due same
    have time : s.clock = c.time + window := Nat.le_antisymm (h.due _ sleeping) (ends ▸ due)
    have number : s.started = front.length := by
      rw [h.started_eq, started, launchesOf, List.length_mapIdx]
    have launches : (d.add s (.wake t)).launches = launchesOf window (front ++ [c]) := by
      rw [launchesOf_concat, ← started, ← time, ← number, ← text]
      simp only [Diary.add, launched, if_pos armed]
      rfl
    rw [wake_of_armed armed]
    refine ⟨h.window_eq, ?_, later, fun _ => ⟨by rw [calls, parts, launches], ?_⟩, ?_⟩
    · rw [launches, launchesOf, List.length_mapIdx, List.length_append, ← number]
      rfl
    · rw [calls, parts, List.forall_mem_append]
      exact ⟨ended, List.forall_mem_singleton.2 (Nat.le_of_eq time.symm)⟩
    · rintro _ ⟨⟩
  · have launches : (d.add s (.wake t)).launches = d.launches := by
      simp [Diary.add, launched, armed]
    rw [wake_of_not_armed armed]
    refine ⟨h.window_eq, launches.symm ▸ h.started_eq, later, ?_, ?_⟩
    · rw [calls, launches]
      exact h.idle
    · rw [calls, launches]
      intro id other
      obtain ⟨front, c, parts, last, sleeping, started, ended⟩ := h.armed id other
      refine ⟨front, c, parts, last, (List.mem_erase_of_ne ?_).2 sleeping, started, ended⟩
      rintro rfl
      exact armed other

theorem finish (h : OnSchedule window d s) (job : Job) (result : Compiled) :
    OnSchedule window (d.add s (.finish job result)) (s.finish job result) := by
  have same : d.add s (.finish job result) = d := by
    simp [Diary.add, called, launched]
  rw [same]
  unfold Scheduler.finish
  dsimp only
  split
  · exact ⟨h.window_eq, h.started_eq, h.due, h.idle, h.armed⟩
  · exact ⟨h.window_eq, h.started_eq, h.due, h.idle, h.armed⟩

theorem tick (h : OnSchedule window d s) {time : Nat} (onTime : s.OnTime (.tick time)) :
    OnSchedule window (d.add s (.tick time)) (s.step (.tick time)) := by
  have same : d.add s (.tick time) = d := by
    simp [Diary.add, called, launched]
  rw [same]
  have grows : ∀ n, n ≤ s.clock → n ≤ s.clock + time := fun n le => Nat.le_add_right_of_le le
  refine ⟨h.window_eq, h.started_eq, onTime, fun idle => ?_, fun id armed => ?_⟩
  · obtain ⟨started, ended⟩ := h.idle idle
    exact ⟨started, fun c mem => grows _ (ended c mem)⟩
  · obtain ⟨front, c, parts, last, sleeping, started, ended⟩ := h.armed id armed
    exact ⟨front, c, parts, last, sleeping, started, fun b mem => grows _ (ended b mem)⟩

theorem step (h : OnSchedule window d s) (timed : Timed s) (onTime : s.OnTime e)
    (apart : Apart window (d.add s e).calls) : OnSchedule window (d.add s e) (s.step e) := by
  cases e with
  | notify text => exact h.notify text apart
  | compileNow text => exact onTime.elim
  | cancel => exact onTime.elim
  | wake t => exact h.wake timed onTime.1 onTime.2
  | finish job result => exact h.finish job result
  | tick time => exact h.tick onTime

end OnSchedule

theorem ClockRun.onSchedule (run : ClockRun window d s) (apart : Apart window d.calls) :
    OnSchedule window d s := by
  induction run with
  | fresh => exact OnSchedule.fresh window
  | @step d s e run onTime ih =>
    obtain ⟨log, run', -⟩ := run.exists_run
    have before : Apart window d.calls := (List.isChain_append.1 apart).1
    exact (ih before).step run'.timed onTime apart

/-! ### The end of a run -/

/-- The newest compilation has been shown, or it is running. -/
theorem Run.newest {log : Log} (run : Run window log s) :
    s.applied = s.started ∨ ∃ j ∈ s.running, j.generation = s.started := by
  induction run with
  | fresh => exact .inl rfl
  | @step log s e run possible ih =>
    have started (text : Text) (t : Scheduler) :
        ∃ j ∈ (t.start text).running, j.generation = (t.start text).started :=
      ⟨_, List.mem_append_right _ (List.mem_singleton_self _), rfl⟩
    cases e with
    | notify text => exact ih
    | cancel => exact ih
    | tick time => exact ih
    | compileNow text => exact .inr (started text s.cancel)
    | wake t =>
      by_cases armed : s.armed = some t.id
      · simp only [Scheduler.step, wake_of_armed armed]
        exact .inr (started t.text _)
      · simp only [Scheduler.step, wake_of_not_armed armed]
        exact ih
    | finish j result =>
      by_cases eq : j.generation = s.started
      · simp only [Scheduler.step, Sound.finish_newest eq]
        exact .inl eq
      · simp only [Scheduler.step, run.sound.finish_stale possible eq]
        obtain shown | ⟨k, mem, newest⟩ := ih
        · exact .inl shown
        · refine .inr ⟨k, (List.mem_erase_of_ne ?_).2 mem, newest⟩
          rintro rfl
          exact eq newest

/-- When nothing runs any more and no timer is armed, the artifact is that of the last compilation,
if there was any. -/
theorem Run.artifact_of_ended {log : Log} (run : Run window log s) (armed : s.armed = none)
    (ended : s.running = []) :
    s.artifact.source = log.launched.getLast?.map Job.text ∧
      s.artifact.generation = log.launched.length := by
  have h := run.sound
  have applied : s.applied = s.started := by
    refine run.newest.resolve_right fun ⟨j, mem, _⟩ => ?_
    rw [ended] at mem
    cases mem
  have number : s.started = log.launched.length := by
    rw [← List.length_map (f := Job.generation), h.generations, List.length_range']
  refine ⟨?_, by rw [h.generation_eq, applied, number]⟩
  cases last : log.launched.getLast? with
  | none =>
    have none : log.shown = [] := by
      have count := h.count
      rw [number, List.getLast?_eq_none_iff.1 last, List.length_nil] at count
      exact List.length_eq_zero_iff.1 (by omega)
    rw [h.artifact_eq, Log.artifact, none]
    rfl
  | some job =>
    have idle : s.phase = .idle := by simp [phase, armed, applied]
    obtain ⟨-, -, result, shown⟩ := h.shown_of_idle idle last
    rw [h.artifact_eq]
    exact (Log.artifact_isAbout shown).source_eq

/-! ### Every run can go on to its end -/

namespace ClockRun

variable (run : ClockRun window d s) (apart : Apart window d.calls)

include run

/-- Compilations end. -/
theorem exists_ended (awake : s.sleeping = []) :
    ∃ d' s', ClockRun window d' s' ∧ d'.calls = d.calls ∧ s'.sleeping = [] ∧ s'.running = [] := by
  induction length : s.running.length generalizing d s with
  | zero => exact ⟨d, s, run, rfl, awake, List.length_eq_zero_iff.1 length⟩
  | succ n ih =>
    obtain ⟨j, mem⟩ := List.exists_mem_of_length_pos (l := s.running) (by omega)
    have finished := run.step (.finish j .broken) mem
    obtain ⟨running, sleeping⟩ : (s.finish j .broken).running = s.running.erase j ∧
        (s.finish j .broken).sleeping = s.sleeping := by
      unfold finish
      dsimp only
      split <;> exact ⟨rfl, rfl⟩
    obtain ⟨d', s', run', calls, ended⟩ := ih finished (sleeping.trans awake) (by
      show (s.finish j .broken).running.length = n
      rw [running, List.length_erase_of_mem mem, length]
      rfl)
    exact ⟨d', s', run', calls.trans (List.append_nil _), ended⟩

include apart

/-- Time passes until the first sleep is due, and the sleep ends. -/
theorem exists_woken (asleep : s.sleeping ≠ []) :
    ∃ t ∈ s.sleeping, (∀ u ∈ s.sleeping, t.due ≤ u.due) ∧
      ∃ d' s', ClockRun window d' s' ∧ d'.calls = d.calls ∧ s'.clock = t.due ∧
        s'.sleeping = s.sleeping.erase t := by
  obtain ⟨t, mem, first⟩ := s.sleeping.toFinset.exists_min_image Timer.due
    (List.toFinset_nonempty_iff _ |>.2 asleep)
  simp only [List.mem_toFinset] at mem first
  have reached : s.clock + (t.due - s.clock) = t.due :=
    Nat.add_sub_of_le ((run.onSchedule apart).due t mem)
  have passed := run.step (.tick (t.due - s.clock)) fun u among => by
    rw [reached]
    exact first u among
  have woken := passed.step (.wake t) ⟨mem, Nat.le_of_eq reached.symm⟩
  refine ⟨t, mem, first, _, _, woken, by simp [Diary.add, called], ?_⟩
  by_cases armed : s.armed = some t.id
  · rw [Scheduler.step, wake_of_armed (by exact armed)]
    exact ⟨reached, rfl⟩
  · rw [Scheduler.step, wake_of_not_armed (by exact armed)]
    exact ⟨reached, rfl⟩

/-- The clock comes to any later time. -/
theorem exists_until {time : Nat} (le : s.clock ≤ time) :
    ∃ d' s', ClockRun window d' s' ∧ d'.calls = d.calls ∧ s'.clock = time := by
  induction length : s.sleeping.length using Nat.strong_induction_on generalizing d s with
  | _ n ih =>
    by_cases quiet : ∀ u ∈ s.sleeping, time ≤ u.due
    · have reached : s.clock + (time - s.clock) = time := Nat.add_sub_of_le le
      exact ⟨_, _, run.step (.tick (time - s.clock)) (by rwa [OnTime, reached]),
        List.append_nil _, reached⟩
    · have asleep : s.sleeping ≠ [] := fun none => quiet (by rw [none]; nofun)
      obtain ⟨t, mem, first, d', s', run', calls, clock, sleeping⟩ := run.exists_woken apart asleep
      have early : t.due ≤ time := by
        simp only [not_forall, Nat.not_le] at quiet
        obtain ⟨u, among, early⟩ := quiet
        exact Nat.le_of_lt (Nat.lt_of_le_of_lt (first u among) early)
      have shorter : s'.sleeping.length < n := by
        have pos := List.length_pos_of_mem mem
        rw [sleeping, List.length_erase_of_mem mem]
        omega
      obtain ⟨d'', s'', run'', calls', clock'⟩ :=
        ih _ shorter run' (by rwa [calls]) (clock ▸ early) rfl
      exact ⟨d'', s'', run'', calls'.trans calls, clock'⟩

/-- All sleeps end. -/
theorem exists_awake : ∃ d' s', ClockRun window d' s' ∧ d'.calls = d.calls ∧ s'.sleeping = [] := by
  induction length : s.sleeping.length generalizing d s with
  | zero => exact ⟨d, s, run, rfl, List.length_eq_zero_iff.1 length⟩
  | succ n ih =>
    have asleep : s.sleeping ≠ [] := by
      intro none
      rw [none] at length
      cases length
    obtain ⟨t, mem, -, d', s', run', calls, -, sleeping⟩ := run.exists_woken apart asleep
    obtain ⟨d'', s'', run'', calls', awake⟩ := ih run' (by rwa [calls])
      (by rw [sleeping, List.length_erase_of_mem mem, length]; rfl)
    exact ⟨d'', s'', run'', calls'.trans calls, awake⟩

end ClockRun

variable {cs : List Call}

/-- Any calls at times that never go back can be made. -/
theorem exists_calls (ordered : cs.Pairwise (·.time ≤ ·.time)) (apart : Apart window cs) :
    ∃ d s, ClockRun window d s ∧ d.calls = cs ∧
      s.clock = (cs.getLast?.map Call.time).getD 0 := by
  induction cs using List.reverseRecOn with
  | nil => exact ⟨_, _, .fresh, rfl, rfl⟩
  | append_singleton cs c ih =>
    rw [List.pairwise_append] at ordered
    obtain ⟨ordered, -, before⟩ := ordered
    have apart' : Apart window cs := (List.isChain_append.1 apart).1
    obtain ⟨d, s, run, calls, clock⟩ := ih ordered apart'
    have le : s.clock ≤ c.time := by
      rw [clock]
      cases last : cs.getLast? with
      | none => exact Nat.zero_le _
      | some b => exact before b (List.mem_of_getLast? last) c List.mem_cons_self
    obtain ⟨d', s', run', calls', clock'⟩ := run.exists_until (by rwa [calls]) le
    refine ⟨_, _, run'.step (.notify c.text) trivial, ?_, ?_⟩
    · rw [Diary.add, calls', calls, called, clock']
    · rw [List.getLast?_concat]
      exact clock'

/-- **One compilation for each quiet period.** A fresh scheduler is told texts at times that never go
back, none at the very end of the window of the one before, and nothing else. Then all sleeps and
all compilations can come to their ends; and whenever all sleeps have ended, the compilations that
were started are those of the calls that no other followed before the end of their window, each
started at that end, in order and with the generations 1, 2, 3 and so on. When the compilations have
ended too, the artifact is that of the last call and its generation is their number. -/
theorem launches_of_lasting (ordered : cs.Pairwise (·.time ≤ ·.time)) (apart : Apart window cs) :
    (∃ d s, ClockRun window d s ∧ d.calls = cs ∧ s.sleeping = [] ∧ s.running = []) ∧
      ∀ d s, ClockRun window d s → d.calls = cs → s.sleeping = [] →
        d.launches = launchesOf window (lasting window cs) ∧
          (s.running = [] → s.artifact.source = cs.getLast?.map Call.text ∧
            s.artifact.generation = d.launches.length) := by
  constructor
  · obtain ⟨d, s, run, calls, -⟩ := exists_calls ordered apart
    obtain ⟨d', s', run', calls', awake⟩ := run.exists_awake (by rwa [calls])
    obtain ⟨d'', s'', run'', calls'', ended⟩ := run'.exists_ended awake
    exact ⟨d'', s'', run'', by rw [calls'', calls', calls], ended⟩
  · intro d s run calls awake
    obtain ⟨log, run', launched⟩ := run.exists_run
    have schedule := run.onSchedule (by rwa [calls])
    have armed : s.armed = none := by
      refine Option.eq_none_iff_forall_not_mem.2 fun id armed => ?_
      obtain ⟨t, mem, -⟩ := run'.timed.armed_sleeping id armed
      rw [awake] at mem
      cases mem
    obtain ⟨launches, -⟩ := schedule.idle armed
    rw [calls] at launches
    refine ⟨launches, fun ended => ?_⟩
    obtain ⟨source, generation⟩ := run'.artifact_of_ended armed ended
    refine ⟨?_, by rw [generation, launched, List.length_map]⟩
    -- the last call lasts, so the last compilation is of its text
    rw [source, launched, launches]
    cases cs using List.reverseRecOn with
    | nil => rfl
    | append_singleton cs c =>
      rw [lasting_concat, launchesOf_concat, List.map_append, List.map_singleton,
        List.getLast?_concat, List.getLast?_concat]
      rfl

/-- Two calls at once and a third within the window make one compilation; a call after that makes
another. -/
theorem launches_of_lasting_twoPeriods :
    let cs : List Call := [⟨0, "f".toList⟩, ⟨0, "fo".toList⟩, ⟨5, "fol".toList⟩, ⟨20, "folio".toList⟩]
    cs.Pairwise (·.time ≤ ·.time) ∧ Apart 10 cs ∧
      ∃ d s, ClockRun 10 d s ∧ d.calls = cs ∧
        d.launches = [⟨15, 1, "fol".toList⟩, ⟨30, 2, "folio".toList⟩] ∧
        s.artifact.source = some "folio".toList ∧ s.artifact.generation = 2 := by
  intro cs
  have ordered : cs.Pairwise (·.time ≤ ·.time) := by decide
  have apart : Apart 10 cs := by decide
  obtain ⟨⟨d, s, run, calls, awake, ended⟩, every⟩ := launches_of_lasting ordered apart
  obtain ⟨launches, shown⟩ := every d s run calls awake
  obtain ⟨source, generation⟩ := shown ended
  have two : launchesOf 10 (lasting 10 cs) = [⟨15, 1, "fol".toList⟩, ⟨30, 2, "folio".toList⟩] := by
    decide
  exact ⟨ordered, apart, d, s, run, calls, launches.trans two, source,
    by rw [generation, launches, two]; rfl⟩

end Folio.Scheduler
