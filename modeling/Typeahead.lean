import Typeahead.Branch.Lemmas
import Typeahead.Grammar
import Typeahead.Proofs.Beginning
import Typeahead.Proofs.Extending.Rule
import Typeahead.Proofs.Forwarding.Grammar
import Typeahead.Proofs.Handover
import Typeahead.Proofs.Keeping
import Typeahead.Proofs.Logs
import Typeahead.Proofs.Marking
import Typeahead.Proofs.Noting
import Typeahead.Proofs.Numbers
import Typeahead.Proofs.Plain.Acceptance
import Typeahead.Proofs.Plain.Narrowing
import Typeahead.Proofs.Run.Pulls
import Typeahead.Proofs.Search.Pick
import Typeahead.Proofs.Selection
import Typeahead.Proofs.Separation
import Typeahead.Proofs.Shape
import Typeahead.Proofs.Tame.Grammar
import Typeahead.Proofs.Text.Embedding
import Typeahead.Proofs.Text.Numerals
import Typeahead.Proofs.Text.Overlap
import Typeahead.Proofs.Text.WordEnds
import Typeahead.Proofs.Twins.CaseFolding
import Typeahead.Proofs.Unexplored
import Typeahead.Rule
import Typeahead.Run.Lemmas
import Typeahead.Proofs.Search.Sequence
import Typeahead.Proofs.Completing
import Typeahead.Proofs.Search.Finished
import Typeahead.Proofs.Placeholders
import Typeahead.Proofs.Twins.Reading
import Typeahead.Proofs.Refactoring.Stage
import Typeahead.Proofs.Refactoring.Echo
import Typeahead.Proofs.Refactoring.Laws
import Typeahead.Proofs.Branch.Refusal
import Typeahead.Proofs.Spacing
import Typeahead.Proofs.Captures
import Typeahead.Proofs.Offering
import Typeahead.Proofs.Taking
