import Folio.Render.Compilation

/-!
# Scheduling compilations

While an author types, the text is compiled in the background once it has been left alone for a
while. Every compilation gets a generation when it starts, and only the result of the newest one
started counts; older results are discarded when they arrive. A failure leaves the last good tree in
place.

A timer that was replaced or cancelled may still end its sleep; it finds another timer armed, or
none, and does nothing. Nor can a compilation that has started be stopped. So the state keeps all
sleeping timers and all running compilations, and any of them may come to its end at any time:

* `Scheduler.notify`, `compileNow` and `cancel` are what the editor asks for;
* `Scheduler.wake` and `Scheduler.finish` are the end of a sleep and of a compilation;
* `Scheduler.settle` and `Scheduler.advance` let all of this happen under a clock.
-/

namespace Folio

/-- What a preview shows: the last tree, the failure of the last compilation if it failed, its
generation and the text that it read. -/
structure Artifact where
  tree : Option Tree := none
  error : Option Failure := none
  generation : Nat := 0
  source : Option Text := none
  deriving Repr

namespace Artifact

/-- Whether the last compilation did not fail. -/
def isOk (a : Artifact) : Bool := a.error.isNone

/-- Whether any compilation has been shown. -/
def isSettled (a : Artifact) : Bool := 0 < a.generation

/-- The failure of a compiler that broke down. -/
def crash : Failure := { kind := .evaluation, message := "compiler crashed", location := none }

/-- Shows the result of a compilation. -/
def apply (a : Artifact) (generation : Nat) (source : Text) (result : Compiled) : Artifact :=
  let shown := { a with generation, source := some source }
  match result with
  | .tree t => { shown with tree := some t, error := none }
  | .failed f => { shown with error := some f }
  | .broken => { shown with error := some crash }

end Artifact

/-- A timer that sleeps until its time has come, to have a text compiled. -/
structure Timer where
  id : Nat
  due : Nat
  text : Text
  deriving DecidableEq, Repr

/-- A compilation that has started. -/
structure Job where
  generation : Nat
  text : Text
  deriving DecidableEq, Repr

/-- What is going on: nothing, a timer is armed, or a compilation is running. -/
inductive Phase
  | idle
  | scheduled
  | compiling
  deriving DecidableEq, Repr

/-- The state of a scheduler. Timers are numbered, and `armed` is the number of the one that
counts. -/
structure Scheduler where
  window : Nat
  clock : Nat := 0
  armed : Option Nat := none
  timers : Nat := 0
  started : Nat := 0
  applied : Nat := 0
  discarded : Nat := 0
  artifact : Artifact := {}
  sleeping : List Timer := []
  running : List Job := []
  deriving Repr

namespace Scheduler

/-- Starts a compilation. -/
def start (s : Scheduler) (text : Text) : Scheduler :=
  { s with
    started := s.started + 1
    running := s.running ++ [{ generation := s.started + 1, text }] }

/-- Has a text compiled when nothing else comes for the length of the window. -/
def notify (s : Scheduler) (text : Text) : Scheduler :=
  let id := s.timers + 1
  { s with
    timers := id
    armed := some id
    sleeping := s.sleeping ++ [{ id, due := s.clock + s.window, text }] }

/-- Disarms the timer. -/
def cancel (s : Scheduler) : Scheduler := { s with armed := none }

/-- Has a text compiled without waiting. -/
def compileNow (s : Scheduler) (text : Text) : Scheduler := s.cancel.start text

/-- The end of a timer's sleep: if it is the armed one, it is disarmed and its text is compiled. Both
are one step: on the one event loop of an editor nothing comes between them. -/
def wake (s : Scheduler) (t : Timer) : Scheduler :=
  let s := { s with sleeping := s.sleeping.erase t }
  if s.armed = some t.id then s.compileNow t.text else s

/-- The end of a compilation: its result is shown if no newer one has started. -/
def finish (s : Scheduler) (j : Job) (result : Compiled) : Scheduler :=
  let s := { s with running := s.running.erase j }
  if j.generation < s.started then { s with discarded := s.discarded + 1 }
  else
    { s with
      applied := j.generation
      artifact := s.artifact.apply j.generation j.text result }

/-- What is going on. -/
def phase (s : Scheduler) : Phase :=
  if s.armed.isSome then .scheduled
  else if s.applied < s.started then .compiling
  else .idle

/-! ### Under a clock -/

/-- Ends all sleeps that are due. -/
def wakeDue (s : Scheduler) : Scheduler :=
  (s.sleeping.filter (·.due ≤ s.clock)).foldl wake s

/-- Ends all compilations that are not held back, in the order in which they started. -/
def finishAll (compiler : Text → Compiled) (held : Text → Bool) (s : Scheduler) : Scheduler :=
  (s.running.filter (!held ·.text)).foldl (fun s j => s.finish j (compiler j.text)) s

/-- Lets everything happen that is due. -/
def settle (compiler : Text → Compiled) (held : Text → Bool) (s : Scheduler) : Scheduler :=
  s.wakeDue.finishAll compiler held

/-- Lets time pass, and everything happen that is due before and after. -/
def advance (compiler : Text → Compiled) (held : Text → Bool) (time : Nat) (s : Scheduler) :
    Scheduler :=
  let s := s.settle compiler held
  { s with clock := s.clock + time }.settle compiler held

/-! ### Description -/

/-- A time in milliseconds with the unit that suits it. -/
def timeText (time : Nat) : String :=
  if time == 0 then "0ns"
  else if time < 1000 then s!"{time}ms"
  else
    let digits := (Nat.toDigits 10 (1000 + time % 1000)).drop 1
    let fraction := Text.trimEndOf (· == '0') digits
    let point := if fraction.isEmpty then "" else "."
    s!"{time / 1000}{point}{String.ofList fraction}s"

/-- The state in one line. -/
def describe (s : Scheduler) : String :=
  let phase :=
    match s.phase with
    | .idle => "Idle"
    | .scheduled => "Scheduled"
    | .compiling => "Compiling"
  s!"RecompileScheduler \x7b window: {timeText s.window}, phase: {phase}, " ++
    s!"latest_generation: {s.started} \x7d"

end Scheduler
end Folio
