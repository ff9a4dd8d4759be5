import ChurchScript.Church.Compiler
import ChurchScript.Diagram.Layout
import ChurchScript.Diagram.Picture
import ChurchScript.Script.SyntaxTree
import ChurchScript.Term.Binding
import ChurchScript.Term.Parser

/-!
# From scripts to lambda text, and from lambda text to drawings
-/
namespace ChurchScript

/-- The lambda text of a script, which is given as a syntax tree in JSON. -/
def lambdaText (source : String) : Except Error String := do
  let program ← Script.Program.parse source
  return (← Church.compile program).text

/-- The diagram of a lambda text, with numerals in place of numbers. -/
def diagram (source : String) : Except Error Diagram.Figure := do
  let t ← Term.parse source
  return Diagram.layout t.expandNumerals.resolve

def drawSvg (style : Diagram.Style) (source : String) : Except Error String := do
  return (← diagram source).svg style

def drawPicture (style : Diagram.Style) (source : String) : Except Error String := do
  return (← diagram source).picture style

end ChurchScript
