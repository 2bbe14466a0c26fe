import LiveSheet.Latex.Equation
import LiveSheet.Settings
import LiveSheet.Sheet
import LiveSheet.Wide.Calculus

/-!
# The setup of a workspace

What stays the same while nodes come and go: the vocabulary of expressions, how they are evaluated
and displayed, and the settings for editing.
-/

namespace LiveSheet

-- Powers are those of the numbers themselves, also where monoids are in scope.
attribute [local instance (2000)] instPowNat

/-- How a workspace reads, evaluates and displays, and how it reacts to edits. -/
structure Setup where
  registry : Registry
  environment : Environment
  renderers : List Latex.Renderer
  limits : Latex.DisplayLimits
  /-- How long a node waits for further edits. -/
  delay : Int
  suggestionLimit : Value

/-- A limit of display, which counts digits; what is no number leaves it at its default. -/
def digitLimit (v : Value) (default : Int) : Int :=
  match v with
  | .int n => n
  | .bool b => if b then 1 else 0
  | .float x =>
    match Binary64.decode (Binary64.floor x) with
    | .finite negative m e =>
      let n : Int := m * 2 ^ e.toNat / 2 ^ (-e).toNat
      if negative then -n else n
    | _ => default
  | _ => default

/-- The limits of display in the settings. -/
def RenderSettings.limits (r : RenderSettings) : Latex.DisplayLimits :=
  ⟨digitLimit r.wholeDigits 6, digitLimit r.fractionDigits 3, digitLimit r.mantissaDigits 4⟩

/-- The delay of a setting in seconds as a multiple of `2^-1074` seconds, if it is a span of time.
An infinite delay is never over, and no timer can be set for a whole number above the binary64
range. What is no number is over at once. -/
def Numeric.span? (seconds : Numeric) : Option Int :=
  match seconds with
  | .bool b => some (Binary64.units (if b then 1 else 0))
  | .int n =>
    if n.natAbs < 2 ^ (1024 : Nat) - 2 ^ (970 : Nat) then some (n * 2 ^ (1074 : Nat)) else none
  | .float x =>
    match Binary64.decode x with
    | .infinite _ => none
    | _ => some (Binary64.units x)

/-- The setup by a registry, an environment for it, and the settings for display and editing. The
delay of the settings has to be a span of time, or timers do not behave as those of this setup. -/
def Setup.ofEnvironment (r : Registry) (environment : Environment) (s : Settings) : Setup :=
  let render := s.render.getD {}
  { registry := r
    environment
    renderers := Latex.Renderer.line render.typeset.isTruthy
    limits := render.limits
    delay := s.delay.span?.getD 0
    suggestionLimit := s.suggestionLimit }

/-- The environment of a registry, with evaluators in line and wide numbers for trees. -/
def Environment.ofRegistry (r : Registry) (line : List Evaluator) (precision : Numeric) :
    Environment :=
  .ofCalculus Wide.calculus r line precision

/-- The setup by a registry and the settings. -/
def Setup.ofSettings (r : Registry) (s : Settings) : Setup :=
  let evaluation := s.evaluation.getD {}
  .ofEnvironment r (.ofRegistry r (Evaluator.line evaluation.exact.isTruthy) evaluation.precision) s

end LiveSheet
