import Typeahead.Proofs.Delivery
import Typeahead.Proofs.Notes
import Typeahead.Proofs.Run.Forwarding
import Typeahead.Proofs.Twins.Grammar
import Typeahead.Proofs.Twins.Kinds

namespace Typeahead

/-! Texts that are forwarded to an enclosing definition.

The parsers of a tree can note each text on the branch where it was found, or forward
all texts to a definition around the tree that notes them.  The parts that are found
are the same.  The notes are the same where a tree only branches, as each text is then
followed at once by the branch it belongs to. -/

variable {H : Host}

namespace Likeness

/-- Twins in parts, scores and input, whatever their data and the parsers around. -/
def sameParts : Likeness H where
  caseSensitive := true
  sameStack := false
  data _ _ := True

def sameData : Likeness H where
  caseSensitive := true
  sameStack := false
  data := Eq

end Likeness

/-- The options of a kind, with a handler if it is a text. -/
def RuleOptions.handling (handler : Emission H → H.Data → Action H (Option H.Data)) (kind : Kind H)
    (options : RuleOptions H) : RuleOptions H :=
  match kind with
  | .literal _ => { options with onEmission := some handler }
  | _ => options

namespace Rule

/-- The tree with one handler on all its texts. -/
def handled (handler : Emission H → H.Data → Action H (Option H.Data)) (rule : Rule H) : Rule H :=
  rule.mapOptions (RuleOptions.handling handler)

/-- A definition that answers the tree with its texts forwarded. -/
def relay (name : String) (rule : Rule Host.notes) : Defined Host.notes where
  name
  objection? := none
  create branch := return {
    parser := (rule.handled forward).build
    contexts := branch.contexts }

/-- The tree within a definition that notes what it is forwarded. -/
def forwarding (name : String) (rule : Rule Host.notes) : Rule Host.notes :=
  .node (.defined (rule.relay name)) { onEmission := some gather } []

end Rule

/-! ### Parts -/

theorem Settings.sameForm_handling (kind : Kind H) (options : RuleOptions H)
    (handler handler' : Emission H → H.Data → Action H (Option H.Data))
    (children children' : List (Parser H)) :
    ((options.handling handler kind).settings children).SameForm
      ((options.handling handler' kind).settings children') := by
  cases kind <;> exact ⟨rfl, rfl, rfl⟩

theorem RuleOptions.handling_enabled (kind : Kind H) (options : RuleOptions H)
    (handler handler' : Emission H → H.Data → Action H (Option H.Data)) :
    (options.handling handler kind).enabled kind = (options.handling handler' kind).enabled kind := by
  cases kind <;> rfl

/-- Handlers have no part in what is found. -/
theorem Settings.emit_sameParts (settings settings' : Settings H) (emission : Emission H)
    {branch twin : Branch H} (twins : branch.Twins .sameParts twin) :
    (settings.emit branch emission).Agree (Branch.Twins .sameParts)
      (settings'.emit twin emission) := by
  intro next next' emitted emitted'
  obtain ⟨data, rfl⟩ := emit_results emitted
  obtain ⟨data', rfl⟩ := emit_results emitted'
  exact { twins with data := trivial }

theorem Rule.handled_twins {rule : Rule H} {direct : Parser H}
    {handler : Emission H → H.Data → Action H (Option H.Data)}
    (handler' : Emission H → H.Data → Action H (Option H.Data))
    (textual : rule.Every fun kind _ => kind.isTextual true = true)
    (built : (rule.handled handler).build = .ok direct) :
    ∃ other, (rule.handled handler').build = .ok other ∧ direct.Twins .sameParts other := by
  refine Every.mapOptions_built ?_ textual built
  intro kind options children children' parser known below made
  obtain ⟨parser', made'⟩ := Kind.exists_build known below.length_eq made
  have form := Settings.sameForm_handling kind options handler handler' children children'
  refine ⟨parser', made', Kind.twins_build known ⟨form, below, ?_⟩ ?_ made made'⟩
  · exact fun emission _ _ twins => Settings.emit_sameParts _ _ emission twins
  · exact options.handling_enabled kind handler handler'

/-! ### Notes -/

/-- An item that lacks the texts which were emitted for it. -/
inductive Item.Owed : List Text → Item Host.notes → Item Host.notes → Prop
  | ok {emitted : List Text} {branch twin : Branch Host.notes}
      (twins : branch.Twins .sameData { twin with data := twin.data ++ emitted }) :
      Owed emitted (.ok branch) (.ok twin)
  | error {cause cause' : Error} (twins : cause.Twins (.sameData (H := Host.notes)) cause') :
      Owed [] (.error cause) (.error cause')

theorem Item.Owed.of_twins {item item' : Item Host.notes} (twins : Item.Twins .sameData item item') :
    Item.Owed [] item item' := by
  cases twins with
  | error twins => exact .error twins
  | ok twins =>
      refine .ok ?_
      simpa using twins

/-- Twins whose copies come by their data silently. -/
structure Branch.Beside (branch twin : Branch Host.notes) : Prop where
  twins : branch.Twins .sameData twin
  silent : ∀ data, (twin.holder.copy data).Silent

namespace Branch.Beside

variable {branch twin : Branch Host.notes}

theorem pushStack (beside : branch.Beside twin) (name : String) :
    (branch.pushStack name).Beside (twin.pushStack name) :=
  ⟨beside.twins.pushStack name, beside.silent⟩

theorem fork_silent (beside : branch.Beside twin) : twin.fork.Silent := by
  intro world
  rw [Branch.fork, Action.bind_def, beside.silent twin.data world]
  rfl

theorem fork (beside : branch.Beside twin) : branch.fork.Agree Beside twin.fork := by
  intro copy copy' copied copied'
  refine ⟨beside.twins.fork copy copy' copied copied', ?_⟩
  obtain ⟨data, rfl⟩ := fork_results copied'
  exact beside.silent

end Branch.Beside

def Step.Forwards (step step' : Step Host.notes) : Prop :=
  ∀ branch twin, branch.Beside twin → (step branch).Forwards Item.Owed (step' twin)

def Parser.Forwards (parser parser' : Parser Host.notes) : Prop :=
  Step.Forwards parser.start parser'.start

/-- Options whose hook hands nothing to the enclosing definition. -/
def RuleOptions.Quiet (options : RuleOptions H) : Prop := ∀ branch, (options.onYield branch).Silent

namespace Settings

variable {settings settings' : Settings Host.notes} {branch twin next : Branch Host.notes}

theorem emit_gather {emission : Emission Host.notes} (gathers : settings.onEmission = some gather)
    (emitted : (settings.emit branch emission).Results next) :
    next = { branch with data := branch.data ++ emission.texts } := by
  simp only [emit, gathers] at emitted
  obtain ⟨answer, given, made⟩ := Action.results_bind emitted
  cases Action.results_pure given
  exact Action.results_pure made

theorem emit_forward (forwards : settings.onEmission = some forward)
    (emission : Emission Host.notes) (world : Unit) :
    settings.emit branch emission world = ⟨branch, emission.texts, world⟩ := by
  simp only [emit, forwards]
  cases emission <;> rfl

/-- A branch that is told what was found beside one for which it was emitted. -/
theorem forwards_yieldExtended (gathers : settings.onEmission = some gather)
    (forwards : settings'.onEmission = some forward) {extended extended' : Item Host.notes}
    (twins : Item.Twins .sameData extended extended') (emission : Option (Emission Host.notes)) :
    (settings.yieldExtended extended emission).Forwards Item.Owed
      (settings'.yieldExtended extended' emission) := by
  cases twins with
  | error twins => exact Action.forwards_pure (Run.forwards_one (.error twins))
  | @ok branch twin twins =>
      cases emission with
      | none => exact Action.forwards_pure (Run.forwards_one (.of_twins (.ok twins)))
      | some emission =>
          intro run world begun
          obtain ⟨next, emitted, made⟩ := Action.results_bind begun
          rw [Action.results_pure made, emit_gather gathers emitted]
          simp only [yieldExtended, Action.bind_def, emit_forward forwards, Action.pure_def,
            List.append_nil]
          refine Run.forwards_one (.ok ?_)
          exact { twins with data := congrArg (· ++ emission.texts) twins.data }

theorem fallback_silent (beside : branch.Beside twin) : (settings.fallback twin).Silent := by
  intro world
  rw [fallback]
  cases settings.placeholder with
  | none => rfl
  | some text =>
      dsimp only
      split
      · rfl
      · rw [Action.bind_def, beside.fork_silent world]
        rfl

theorem leave_silent (quiet : ∀ branch, (settings.onYield branch).Silent)
    (item : Item Host.notes) : (settings.leave item).Silent := by
  intro world
  cases item with
  | error cause => rfl
  | ok branch =>
      rw [leave, Action.bind_def, quiet branch.popStack world]
      rfl

theorem leave_owed {emitted : List Text} {item item' : Item Host.notes}
    (owed : Item.Owed emitted item item') :
    (settings.leave item).Agree (Item.Owed emitted) (settings'.leave item') := by
  intro left left' answered answered'
  rw [leave_results answered, leave_results answered']
  cases owed with
  | ok twins => exact .ok twins.popStack
  | error twins => exact .error twins

end Settings

section Kinds

variable {settings settings' : Settings Host.notes}

theorem Parser.forwards_around {name : String} {enabled : Bool} {matching matching' : Step Host.notes}
    (same : settings.SameForm settings') (quiet : ∀ branch, (settings'.onYield branch).Silent)
    (steps : Step.Forwards matching matching') :
    (Parser.around name enabled settings matching).Forwards
      (Parser.around name enabled settings' matching') := by
  intro branch twin beside
  dsimp only [around]
  rw [same.course beside.twins enabled]
  split
  · exact Action.forwards_pure (Run.forwards_one (.of_twins (.ok beside.twins)))
  · exact Action.forwards_pure
      (Run.forwards_one (.of_twins (same.addPlaceholder beside.twins _)))
  · exact Action.forwards_pure (Run.forwards_one (.of_twins (.ok beside.twins.finish)))
  · refine Action.forwards_bind (same.fallback beside.twins) (Settings.fallback_silent beside)
      fun fallback fallback' shown => ?_
    -- the matching may emit as it is begun, so it is not bound like the silent fallback
    refine Action.forwards_map (steps _ _ (beside.pushStack name))
      fun earlier run run' matched => ?_
    have left := Run.forwards_mapAction (f := settings.leave) matched (Settings.leave_silent quiet)
      fun emitted head head' => Settings.leave_owed
    refine Run.forwards_orElse left ?_
    cases shown with
    | none => exact .none
    | some twins => exact .some (.of_twins twins)

theorem Literal.forwards_matcher {literal : Literal} (nonempty : literal.text ≠ [])
    (same : settings.SameForm settings') (gathers : settings.onEmission = some gather)
    (forwards : settings'.onEmission = some forward) :
    Step.Forwards (literal.matcher.step settings) (literal.matcher.step settings') := by
  intro branch twin beside
  have reads := reads_matcher nonempty (fun _ => rfl) same beside.twins
  generalize literal.matcher.step settings branch = begun at reads ⊢
  generalize literal.matcher.step settings' twin = begun' at reads ⊢
  cases reads with
  | nothing => exact Action.forwards_pure Run.forwards_empty
  | extended emission twins =>
      exact Settings.forwards_yieldExtended gathers forwards twins emission

theorem Fork.forwards_step
    (below : List.Forall₂ Parser.Forwards settings.children settings'.children) :
    Step.Forwards (Fork.step settings) (Fork.step settings') := by
  intro branch twin beside
  refine Action.forwards_pure (Run.forwards_concatMap below fun child child' forwards => ?_)
  exact Action.forwards_bind beside.fork beside.fork_silent forwards

theorem Optional.forwards_step
    (below : List.Forall₂ Parser.Forwards settings.children settings'.children) :
    Step.Forwards (Optional.step settings) (Optional.step settings') := by
  intro branch twin beside
  refine Action.forwards_bind beside.fork beside.fork_silent fun skipped skipped' copies => ?_
  refine Action.forwards_pure
    (Run.forwards_cons (.of_twins (.ok copies.twins)) (Run.forwards_defer ?_))
  generalize settings.children = children at below ⊢
  generalize settings'.children = children' at below ⊢
  cases below with
  | nil => exact Action.forwards_pure Run.forwards_empty
  | cons child _ => exact child branch twin beside

end Kinds

namespace Kind

/-- Texts, and the kinds that continue each branch on its own. -/
def isBranching : Kind H → Bool
  | .literal _ | .fork | .optional => true
  | _ => false

theorem forwards_build {kind : Kind Host.notes} {options : RuleOptions Host.notes}
    {children children' : List (Parser Host.notes)} {parser parser' : Parser Host.notes}
    (branching : kind.isBranching = true) (quiet : options.Quiet)
    (below : List.Forall₂ Parser.Forwards children children')
    (built : kind.build (options.handling gather kind) children = .ok parser)
    (built' : kind.build (options.handling forward kind) children' = .ok parser') :
    parser.Forwards parser' := by
  have form := Settings.sameForm_handling kind options gather forward children children'
  obtain ⟨prepared, checked, completed, rfl⟩ := Matcher.build_eq_ok built
  obtain ⟨prepared', _, completed', rfl⟩ := Matcher.build_eq_ok built'
  rw [options.handling_enabled kind gather forward]
  cases kind with
  | literal shape =>
      cases completed
      cases completed'
      exact Parser.forwards_around form quiet
        (Literal.forwards_matcher (Literal.check_eq_ok checked) form rfl rfl)
  | fork =>
      cases completed
      cases completed'
      exact Parser.forwards_around form quiet (Fork.forwards_step below)
  | optional =>
      cases completed
      cases completed'
      exact Parser.forwards_around form quiet (Optional.forwards_step below)
  | sequence | pick _ | repetition _ | number _ | word _ | freetext _ | whitespace | defined _
    | custom _ => simp [isBranching] at branching

end Kind

theorem Rule.handled_forwards {rule : Rule Host.notes} {direct : Parser Host.notes}
    (branching : rule.Every fun kind options => kind.isBranching = true ∧ options.Quiet)
    (built : (rule.handled gather).build = .ok direct) :
    ∃ inner, (rule.handled forward).build = .ok inner ∧ direct.Forwards inner := by
  refine Every.mapOptions_built ?_ branching built
  rintro kind options children children' parser ⟨known, quiet⟩ below made
  have textual : kind.isTextual true = true := by
    cases kind <;> simp_all [Kind.isBranching, Kind.isTextual]
  obtain ⟨parser', made'⟩ := Kind.exists_build textual below.length_eq made
  exact ⟨parser', made', Kind.forwards_build known quiet below made made'⟩

end Typeahead
