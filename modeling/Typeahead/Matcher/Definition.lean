import Typeahead.Parser

namespace Typeahead

/-! Parsers that the owner defines.

A definition is run for every branch that reaches it.  It looks at the branch,
may set contexts on it, and answers the parser that continues it.  Values that
are emitted meanwhile, by the definition or by callbacks of that parser, reach
the definition's own handler with the next branch that the parser yields. -/

structure Created (H : Host) where
  parser : Except Error (Parser H)
  contexts : Contexts H

structure Definition (H : Host) (Options : Type) where
  name : String
  /-- Answers the reason to refuse some options, if there is one. -/
  objection? : Options → Option String := fun _ => none
  create : Options → Branch H → Action H (Created H)

structure Defined (H : Host) where
  name : String
  objection? : Option String
  create : Branch H → Action H (Created H)

def Definition.apply {H : Host} {Options : Type} (definition : Definition H Options)
    (options : Options) : Defined H where
  name := definition.name
  objection? := definition.objection? options
  create := definition.create options

namespace Defined

variable {H : Host}

/-- What happens to a branch at once: it gets the contexts of the definition's run,
and the parser that was answered is begun on it. -/
def startOn (defined : Defined H) (branch : Branch H) : Action H (Run H (Item H)) := do
  let created ← defined.create branch
  match created.parser with
  | .error cause => return .one (.error cause)
  | .ok parser => parser.start { branch with contexts := created.contexts }

/-- Branches take emitted values, errors leave them to the next branch. -/
def takesValues : Item H → Bool
  | .ok _ => true
  | .error _ => false

/-- Hands values to the definition's own handler, one by one. -/
def deliver (settings : Settings H) : Item H × List H.Value → Action H (Item H)
  | (.ok branch, values) => do
      return .ok (← values.foldlM (fun branch value => settings.emit branch (.value value)) branch)
  | (.error cause, _) => return .error cause

def step (defined : Defined H) (settings : Settings H) : Step H := fun branch => do
  let (run, waiting) ← (defined.startOn branch).collecting
  return (run.collecting takesValues waiting).mapAction (deliver settings)

def matcher (defined : Defined H) : Matcher H where
  name := defined.name
  check _ :=
    match defined.objection? with
    | some reason => .error (.invalidOptions defined.name reason)
    | none => .ok ()
  step := defined.step

end Defined

end Typeahead
