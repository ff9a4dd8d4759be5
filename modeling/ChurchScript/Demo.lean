import ChurchScript.Drawing

/-!
# Demonstrations

Scripts with their source text, shown next to their lambda text and diagram.
-/
namespace ChurchScript

structure Demo where
  title : String
  source : String
  program : Script.Program

namespace Demo

open Script

private def number (n : Nat) : Expr := .literal (.number (.ofNat n))

private def declared (name : String) (params : List String) (body : List Stmt) : Stmt :=
  .function ⟨some name, params.map .identifier, .block body⟩

private def returned (value : Expr) : Stmt := .ret (some value)

def addition : Demo where
  title := "Addition"
  source := "function add(a, b) \x7b\n  return a + b;\n\x7d\n"
  program := ⟨[declared "add" ["a", "b"]
    [returned (.binary .add (.identifier "a") (.identifier "b"))]]⟩

def zeroTest : Demo where
  title := "Zero test"
  source := "function isZero(n) \x7b\n  return n === 0;\n\x7d\n"
  program := ⟨[declared "isZero" ["n"]
    [returned (.binary .strictEq (.identifier "n") (number 0))]]⟩

def grade : Demo where
  title := "Switch with a helper function"
  source := "export function grade(n: number) \x7b\n  switch (n) \x7b\n    case 1:\n" ++
    "      return true;\n    case 2:\n      const half = halve(n);\n      return half;\n" ++
    "    default:\n      return false;\n  \x7d\n\x7d\n\n" ++
    "function halve(x: number) \x7b\n  return (x / 2) as number;\n\x7d\n"
  program := ⟨[
    declared "grade" ["n"] [.switch (.identifier "n") [
      ⟨some (number 1), [returned (.literal (.boolean true))]⟩,
      ⟨some (number 2), [
        .declare [⟨.identifier "half", some (.call (.identifier "halve") [.identifier "n"])⟩],
        returned (.identifier "half")]⟩,
      ⟨none, [returned (.literal (.boolean false))]⟩]],
    declared "halve" ["x"] [returned (.binary .div (.identifier "x") (number 2))]]⟩

def all : List Demo := [addition, zeroTest, grade]

def page (style : Diagram.Style) (demo : Demo) : Except Error String := do
  let lambda := (← Church.compile demo.program).text
  let picture ← drawPicture style lambda
  return "==== " ++ demo.title ++ " ====\n\nSource:\n" ++ demo.source ++ "\nλ expression:\n" ++
    lambda ++ "\n\nTromp diagram:\n" ++ picture ++ "\n"

end Demo

def demonstrations (style : Diagram.Style) : Except Error String := do
  return String.join (← Demo.all.mapM (·.page style))

end ChurchScript
