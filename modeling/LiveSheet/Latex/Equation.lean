import LiveSheet.Latex.Display
import LiveSheet.Latex.Tree
import LiveSheet.Latex.Typeset

/-!
# Equations

The displayed form of a node: its expression, an equals sign and its result. The expression goes to
the first renderer of a line that does not refuse it, and in the end to the one that sets it as it
was typed, which refuses nothing.
-/

namespace LiveSheet.Latex

/-- A renderer of expressions in a line. -/
inductive Renderer where
  /-- Mathematical typesetting. -/
  | typeset
  /-- The expression as it was typed. -/
  | typed
  /-- A renderer that is not there. -/
  | absent
deriving Repr, DecidableEq

/-- The line of renderers by the setting whether the typesetter is used. -/
def Renderer.line (typesetter : Bool) : List Renderer :=
  if typesetter then [.typeset, .typed] else [.typed]

/-- The LaTeX of a text as it was typed. -/
def ofText (r : Registry) (text : String) : String :=
  ofTokens r (r.tokens text)

/-- The LaTeX of a text by the first renderer of a line that does not refuse it. -/
def expression (r : Registry) (line : List Renderer) (text : String) : String :=
  match line with
  | [] => ofText r text
  | .absent :: line => expression r line text
  | .typed :: _ => ofText r text
  | .typeset :: line =>
    match typesetText r text with
    | .ok latex => latex
    | .error _ => expression r line text

/-- The equation of an expression and its result. -/
def equation (r : Registry) (line : List Renderer) (limits : DisplayLimits) (text : String)
    (result : Value) : Except NumberError String :=
  (displayValue limits result).map fun shown => expression r line text ++ " = " ++ shown

end LiveSheet.Latex
