import ScriptLowering.Lower.Expression

/-!
# Switch statements

A `switch` first compares its discriminant with the tests of all clauses, in source order, and jumps
to the first clause that matches, or else to the default clause. The clauses follow in one sequence,
each falling through to the next. The discriminant is held in a temp throughout the tests, so none
of them may suspend.
-/

namespace ScriptLowering.Lower

/-- A label for each element of a list. -/
def freshLabels {α : Type} : List α → Lower (List Label)
  | [] => pure []
  | _ :: rest => do
    let label ← freshLabel
    return label :: (← freshLabels rest)

/-- Compares the discriminant with the test of each clause in turn, and jumps to the first clause
that matches. Gives the label of the last default clause. -/
def switchTests (discriminant : Temp) :
    Option Label → List (SwitchCase × Label) → Lower (Option Label)
  | fallback, [] => pure fallback
  | _, (.clause none _, label) :: rest => switchTests discriminant (some label) rest
  | fallback, (.clause (some test) _, label) :: rest => do
    let value ← asObject (← lowerExpr test)
    let matched ← define .bool (.dynamic .strictEq discriminant value)
    branchIf true matched label
    switchTests discriminant fallback rest

/-- `switch`. All tests come first, then the clauses, each falling through to the next. -/
def switchStatement (scope : Option ScopeId) (discriminant : Lower Temp) (cases : List SwitchCase)
    (clauses : List Label → Lower Unit) : Lower Unit := do
  if (← read).isResumable && cases.any fun c => Expr.optionSuspends c.test? then
    decline .suspendInCaseTest
  else
    let finish ← freshLabel
    let value ← asObject (← discriminant)
    inScope scope do
      cases.forM fun c => hoist c.body
      let labels ← freshLabels cases
      let fallback ← switchTests value none (cases.zip labels)
      branch (fallback.getD finish)
      within (.switch finish) (clauses labels)
      place finish

end ScriptLowering.Lower
