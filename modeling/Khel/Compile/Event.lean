import Khel.Error

/-!
# Reports of a compilation

A compilation reports what it does as it goes. Reports have levels, and a reader asks for all reports up to a level.

* `Reporting.Gives`: reports do not change a result. A compilation gives what its steps give without them.
-/

namespace Khel

/-- How much a report matters. -/
inductive Level where
  | error | debug | trace
  deriving DecidableEq

namespace Level

/-- Greater ranks matter less. -/
def rank : Level → Nat
  | .error => 1
  | .debug => 4
  | .trace => 5

/-- The name of a level. -/
def text : Level → String
  | .error => "ERROR"
  | .debug => "DEBUG"
  | .trace => "TRACE"

end Level

/-- A report. -/
structure Event where
  level : Level
  text : String
  deriving DecidableEq

/-- The reports up to a level. -/
def Level.filter (most : Level) (events : List Event) : List Event := events.filter (·.level.rank ≤ most.rank)

/-- A compilation in progress: it can fail, and its reports stay also if it does. -/
abbrev Reporting (α : Type) := ExceptT CompileError (StateM (List Event)) α

namespace Reporting

/-- Makes a report. -/
def report (level : Level) (text : String) : Reporting Unit := modify (· ++ [⟨level, text⟩])

/-- Runs a step that reports nothing. -/
def step {α : Type} (result : Except CompileError α) : Reporting α := ExceptT.mk (pure result)

/-- The report of a failure. A rejected program is nothing unusual. -/
def failure (e : CompileError) : Event :=
  if e.isRejection then ⟨.debug, "program rejected: " ++ e.message⟩
  else ⟨.error, "compilation failed: " ++ e.message⟩

/-- The result of a compilation and its reports, which end with the failure if there is one. -/
def outcome {α : Type} (steps : Reporting α) : Except CompileError α × List Event :=
  match (ExceptT.run steps).run [] with
  | (.ok a, events) => (.ok a, events)
  | (.error e, events) => (.error e, events ++ [failure e])

/-! ## Results without reports -/

/-- The compilation has this result, whatever was reported before. -/
def Gives {α : Type} (steps : Reporting α) (result : Except CompileError α) : Prop :=
  ∀ events, ((ExceptT.run steps).run events).1 = result

theorem gives_pure {α : Type} (a : α) : Gives (pure a) (.ok a) := fun _ => rfl

theorem gives_step {α : Type} (result : Except CompileError α) : Gives (step result) result := fun _ => rfl

theorem Gives.bind {α β : Type} {steps : Reporting α} {result : Except CompileError α} {f : α → Reporting β}
    {g : α → Except CompileError β} (h : Gives steps result) (hf : ∀ a, Gives (f a) (g a)) :
    Gives (steps >>= f) (result >>= g) := by
  intro events
  have hr := h events
  show (ExceptT.bindCont f ((ExceptT.run steps).run events).1 ((ExceptT.run steps).run events).2).1 = _
  rw [hr]
  cases result with
  | ok a => exact hf a _
  | error e => rfl

/-- A report leaves the result to what follows it. -/
theorem Gives.report_bind {β : Type} {f : Unit → Reporting β} {result : Except CompileError β} (level : Level)
    (text : String) (h : Gives (f ()) result) : Gives (report level text >>= f) result :=
  fun events => h (events ++ [Event.mk level text])

theorem fst_outcome {α : Type} {steps : Reporting α} {result : Except CompileError α} (h : Gives steps result) :
    (outcome steps).1 = result := by
  rw [← h []]
  unfold outcome
  split <;> simp_all

end Reporting

end Khel
