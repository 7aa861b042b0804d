import Typeahead.Parser

namespace Typeahead

/-! Runs that go on from their own branches. -/

namespace Run

variable {H : Host}

/-- Every item, and behind each branch what it is extended to: a copy of the
branch is made before it is yielded, and extended when the next item is pulled. -/
def thenExtend (extend : Branch H → Action H (Run H (Item H))) (run : Run H (Item H)) :
    Run H (Item H) :=
  run.flatMap fun
    | .ok branch => do
        let rest ← branch.fork
        return .cons (.ok branch) (.defer (extend rest))
    | .error cause => return .one (.error cause)

end Run

end Typeahead
