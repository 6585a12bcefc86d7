import Highlight.Notice
import Highlight.Number.Scalar

/-! Timed transitions from one theme to another. A transition is driven from outside by ticks.
Its progress is the elapsed share of its duration, passed through an easing curve. -/

namespace Highlight

inductive Phase (θ α : Type)
  | idle
  | running (oldTheme : θ) (progress : α)
deriving DecidableEq, Repr

namespace Phase

def isRunning {θ α : Type} : Phase θ α → Bool
  | idle => false
  | running .. => true

def oldTheme? {θ α : Type} : Phase θ α → Option θ
  | idle => none
  | running oldTheme _ => some oldTheme

def progress? {θ α : Type} : Phase θ α → Option α
  | idle => none
  | running _ progress => some progress

end Phase

/-- An easing curve maps the elapsed share to progress. It may fail. -/
abbrev Easing (α : Type) := α → Option α

def linear {α : Type} : Easing α := some

structure EasingFailed where
deriving DecidableEq, Repr

structure Transition (θ α : Type) where
  phase : Phase θ α
  duration : α
  elapsed : α
  easing : Easing α

namespace Transition

section
variable {θ α : Type} [Add α] [Div α] [LT α] [DecidableLT α] [LE α] [DecidableLE α] [OfNat α 0] [OfNat α 1]

def initial : Transition θ α := ⟨.idle, 0, 0, linear⟩

def isActive (transition : Transition θ α) : Bool := transition.phase.isRunning

/-- Starts a transition away from a theme. One that is running is replaced, and one without a
duration is over at once. -/
def start (transition : Transition θ α) (oldTheme : θ) (duration : α) (easing : Easing α) : Transition θ α :=
  if duration ≤ 0 then { transition with phase := .idle }
  else ⟨.running oldTheme 0, duration, 0, easing⟩

def startNotices (name : θ → List CodePoint) (transition : Transition θ α) : List Notice :=
  match transition.phase with
  | .running oldTheme _ => [.replacedTransition (name oldTheme)]
  | .idle => []

/-- Lets time pass, and tells whether the transition is still running. Time that passes in a
tick whose easing fails has passed all the same. -/
def tick (transition : Transition θ α) (delta : α) : Transition θ α × Except EasingFailed Bool :=
  match transition.phase with
  | .idle => (transition, .ok false)
  | .running oldTheme _ =>
    let elapsed := transition.elapsed + delta
    let share := lesser 1 (elapsed / transition.duration)
    let later := { transition with elapsed := elapsed }
    if 1 ≤ share then ({ later with phase := .idle }, .ok false)
    else match transition.easing share with
      | some progress => ({ later with phase := .running oldTheme progress }, .ok true)
      | none => (later, .error {})

def stop (transition : Transition θ α) : Transition θ α := { transition with phase := .idle }

end

end Transition

end Highlight
