import Typeahead.Grammar
import Typeahead.Rule

namespace Typeahead

/-! An owner that keeps a log of what it is told. -/

/-- The world is the log; branches carry nothing and nothing is handed on. -/
abbrev Host.logs : Host := ⟨List String, Unit, Unit, Unit⟩

namespace Logs

def note (entry : String) : Action Host.logs Unit :=
  Action.change (H := Host.logs) (· ++ [entry])

/-- Nothing of this name was noted. -/
def Lacks (entry : String) (log : Host.logs.World) : Prop := entry ∉ (log : List String)

/-- A handler that notes that it was asked and changes nothing. -/
def handler (entry : String) (_ : Emission Host.logs) (_ : Unit) :
    Action Host.logs (Option Unit) := do
  note entry
  return none

/-- A literal that is told of under its own text. -/
def literal (text : String) : Rule Host.logs :=
  .node (.literal { text := text.toList }) { onEmission := some (handler text) } []

/-- Copies of branches are noted, too. -/
def holder : Holder Host.logs where
  init := note "init"
  copy _ := note "copy"

def branch (given : String) : Branch Host.logs where
  given := given.toList
  holder := holder
  data := ()

end Logs

end Typeahead
