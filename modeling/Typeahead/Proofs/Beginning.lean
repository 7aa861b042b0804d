import Typeahead.Branch.Lemmas
import Typeahead.Proofs.Logs
import Typeahead.Proofs.Rule
import Typeahead.Proofs.Run.Pulls
import Typeahead.Proofs.Run.Yields

namespace Typeahead

/-! What a call does before anything is pulled.

Most kinds wait for the first pull.  The others ask their handler at once for what they
have read, or begin their child at once, and a definition is run by the call.  So a call
can reach the owner through the head of a grammar, but never a hook, a filter or anything
that stands behind an alternative or behind a first part. -/

variable {H : Host} {α β : Type} {P : H.World → Prop}

/-- An action that hands on nothing and stays within some worlds. -/
def Action.Preserves (P : H.World → Prop) (action : Action H α) : Prop :=
  ∀ world, P world → (action world).emitted = [] ∧ P (action world).world

namespace Action.Preserves

theorem pure (result : α) : (Pure.pure result : Action H α).Preserves P :=
  fun _ within => ⟨rfl, within⟩

theorem bind {before : Action H α} {after : α → Action H β} (first : before.Preserves P)
    (next : ∀ world, (after (before world).result).Preserves P) :
    (before >>= after).Preserves P := by
  intro world within
  obtain ⟨silent, between⟩ := first world within
  obtain ⟨silent', left⟩ := next world _ between
  exact ⟨by simp only [Action.bind_def, silent, silent', List.append_nil], left⟩

theorem collecting {action : Action H α} (preserves : action.Preserves P) :
    action.collecting.Preserves P :=
  fun world within => ⟨rfl, (preserves world within).2⟩

theorem pulls_exhausted (count : Nat) :
    (Cursor.pulls count (.exhausted : Cursor H α)).Preserves P := by
  induction count with
  | zero => exact .pure []
  | succ count ih =>
      refine .bind (fun _ within => ⟨rfl, within⟩) fun world => ?_
      exact .bind ih fun _ => .pure _

theorem pulls_ended {run : Run H α} (ended : ∀ world, run.pull world = .ended [] world)
    (count : Nat) : (Cursor.pulls count (.ofRun run)).Preserves P := by
  cases count with
  | zero => exact .pure []
  | succ count =>
      refine .bind (fun world within => ?_) fun world => ?_
      · rw [Cursor.next_ofRun_ended (ended world)]
        exact ⟨rfl, within⟩
      · rw [Cursor.next_ofRun_ended (ended world)]
        exact .bind (pulls_exhausted count) fun _ => .pure _

end Action.Preserves

/-- Copies of this branch preserve the worlds. -/
def Branch.CopyPreserves (P : H.World → Prop) (branch : Branch H) : Prop :=
  ∀ data, (branch.holder.copy data).Preserves P

def Step.Preserves (P : H.World → Prop) (step : Step H) : Prop :=
  ∀ branch, branch.CopyPreserves P → (step branch).Preserves P

def Parser.Preserves (P : H.World → Prop) (parser : Parser H) : Prop :=
  Step.Preserves P parser.start

/-- What is asked on emissions, if anything is, preserves the worlds. -/
def Emission.HandlerPreserves (P : H.World → Prop)
    (onEmission : Option (Emission H → H.Data → Action H (Option H.Data))) : Prop :=
  ∀ handler, onEmission = some handler → ∀ emission data, (handler emission data).Preserves P

theorem Branch.preserves_fork {branch : Branch H} (copies : branch.CopyPreserves P) :
    branch.fork.Preserves P :=
  .bind (copies branch.data) fun _ => .pure _

namespace Settings

variable {settings : Settings H}

theorem preserves_emit (handler : Emission.HandlerPreserves P settings.onEmission)
    (branch : Branch H) (emission : Emission H) : (settings.emit branch emission).Preserves P := by
  rw [emit]
  split
  · exact .pure branch
  · rename_i asked found
    refine .bind (handler asked found emission branch.data) fun world => ?_
    split
    · exact .pure _
    · exact .pure _

theorem preserves_yieldExtended (handler : Emission.HandlerPreserves P settings.onEmission)
    (extended : Item H) (emission : Option (Emission H)) :
    (settings.yieldExtended extended emission).Preserves P := by
  unfold yieldExtended
  split
  · exact .bind (preserves_emit handler _ _) fun _ => .pure _
  · exact .pure _
  · exact .pure _

theorem preserves_fallback (settings : Settings H) {branch : Branch H}
    (copies : branch.CopyPreserves P) : (settings.fallback branch).Preserves P := by
  rw [fallback]
  split
  · split
    · exact .pure none
    · exact .bind (Branch.preserves_fork copies) fun _ => .pure _
  · exact .pure none

end Settings

/-- Hooks and placeholders of a parser wait for the pulls. -/
theorem Parser.preserves_around (name : String) (enabled : Bool) (settings : Settings H)
    {matching : Step H} (preserves : matching.Preserves P) :
    (Parser.around name enabled settings matching).Preserves P := by
  intro branch copies
  dsimp only [around]
  split
  · exact .pure _
  · exact .pure _
  · exact .pure _
  · refine .bind (settings.preserves_fallback copies) fun _ => ?_
    exact .bind (preserves (branch.pushStack name) copies) fun _ => .pure _

/-! ### Kinds -/

theorem Literal.preserves_matcher (literal : Literal) {settings : Settings H}
    (handler : Emission.HandlerPreserves P settings.onEmission) :
    (literal.matcher.step settings).Preserves P := by
  intro branch _
  dsimp only [matcher]
  split
  · rw [fuzzyStep]
    split
    · exact .pure _
    · exact Settings.preserves_yieldExtended handler _ _
  · rw [step]
    split
    · exact .pure _
    · exact Settings.preserves_yieldExtended handler _ _

theorem Number.preserves_matcher (number : Number) {settings : Settings H}
    (handler : number.offersAll = false → Emission.HandlerPreserves P settings.onEmission) :
    (number.matcher.step settings).Preserves P := by
  intro branch _
  dsimp only [matcher]
  split
  · rw [offerStep]
    split
    · exact .pure _
    · exact .pure _
  · rename_i reads
    rw [readStep]
    split
    · exact .pure _
    · split
      · exact Settings.preserves_yieldExtended (handler (by simpa using reads)) _ _
      · exact .pure _

theorem Whitespace.preserves_step {settings : Settings H}
    (handler : Emission.HandlerPreserves P settings.onEmission) : (step settings).Preserves P := by
  intro branch _
  rw [step]
  split
  · exact .pure _
  · exact Settings.preserves_yieldExtended handler _ _

theorem Word.copyPreserves_opened {marker : Option Marker} {branch next : Branch H}
    (copies : branch.CopyPreserves P) (opened : opened? marker branch = some (.ok next)) :
    next.CopyPreserves P := by
  have added {part : Part} (made : some (branch.add part) = some (.ok next)) :
      next.CopyPreserves P := by
    obtain ⟨_, _, rfl⟩ := Branch.add_eq_ok (Option.some.inj made)
    exact copies
  rw [opened?] at opened
  split at opened
  · cases opened
    exact copies
  · split at opened
    · exact added opened
    · split at opened
      · contradiction
      · exact added opened

theorem Word.preserves_step {settings : Settings H}
    (children : ∀ child ∈ settings.children, child.Preserves P) : (step settings).Preserves P := by
  intro branch copies
  rw [step]
  split
  · exact .pure _
  · exact .pure _
  · exact .pure _
  · rename_i opened child others found given
    refine .bind (children child ?_ opened (copyPreserves_opened copies found)) fun _ => .pure _
    rw [given]
    exact List.mem_cons_self

theorem Repetition.preserves_step (repetition : Repetition) {settings : Settings H}
    (children : ∀ child ∈ settings.children, child.Preserves P) :
    (repetition.step settings).Preserves P := by
  intro branch copies
  rw [step]
  split
  · exact .pure _
  · rename_i child others given
    refine .bind (children child ?_ branch copies) fun _ => .pure _
    rw [given]
    exact List.mem_cons_self

theorem Defined.preserves_step {defined : Defined H} (settings : Settings H)
    (creates : ∀ branch, (defined.create branch).Preserves P)
    (answers : ∀ branch world parser,
      (defined.create branch world).result.parser = .ok parser → parser.Preserves P) :
    (defined.step settings).Preserves P := by
  intro branch copies
  have starts : (defined.startOn branch).Preserves P := by
    refine .bind (creates branch) fun world => ?_
    split
    · exact .pure _
    · rename_i parser answered
      exact answers branch world parser answered _ copies
  exact .bind starts.collecting fun _ => .pure _

/-- A word of text begins its literal, which asks the handler of the word. -/
theorem Word.preserves_prepared {word : Word} {settings prepared : Settings H}
    (completed : word.prepare settings = .ok prepared)
    (handler : word.text.isSome = true → Emission.HandlerPreserves P settings.onEmission)
    (children : word.text.isSome = false → ∀ child ∈ settings.children, child.Preserves P) :
    (step prepared).Preserves P := by
  cases text : word.text with
  | none =>
      simp only [prepare, text, Except.ok.injEq] at completed
      rw [← completed]
      exact preserves_step (children (by simp [text]))
  | some content =>
      simp only [prepare, text] at completed
      obtain ⟨inner, built, made⟩ := Except.bind_eq_ok completed
      cases made
      obtain ⟨_, _, unchanged, rfl⟩ := Matcher.build_eq_ok built
      cases unchanged
      apply preserves_step
      intro child member
      rw [List.mem_singleton.mp member]
      exact Parser.preserves_around _ _ _ (Literal.preserves_matcher _ (handler (by simp [text])))

/-- What a kind does at once when it is begun, beside copying the branch. -/
inductive Onset where
  | waits
  | emits
  | opens
deriving DecidableEq

namespace Kind

def onset : Kind H → Onset
  | .literal _ | .whitespace => .emits
  | .number shape => if shape.offersAll then .waits else .emits
  | .word shape => if shape.text.isSome then .emits else .opens
  | .repetition _ | .defined _ | .custom _ => .opens
  | .sequence | .fork | .pick _ | .optional | .freetext _ => .waits

variable {kind : Kind H} {options : RuleOptions H} {children : List (Parser H)}
  {parser : Parser H}

theorem preserves_build (builtIn : kind.isBuiltIn = true)
    (handler : kind.onset = .emits → Emission.HandlerPreserves P options.onEmission)
    (below : kind.onset = .opens → ∀ child ∈ children, child.Preserves P)
    (built : kind.build options children = .ok parser) : parser.Preserves P := by
  obtain ⟨prepared, _, completed, rfl⟩ := Matcher.build_eq_ok built
  apply Parser.preserves_around
  cases kind with
  | literal shape =>
      cases completed
      exact shape.preserves_matcher (handler rfl)
  | number shape =>
      cases completed
      exact shape.preserves_matcher fun offers => handler (by simp [onset, offers])
  | word shape =>
      exact Word.preserves_prepared completed (fun given => handler (by simp [onset, given]))
        fun missing => below (by simp [onset, missing])
  | sequence | fork | pick _ | freetext _ =>
      -- these answer a run and leave all they do to its pulls
      cases completed
      exact fun _ _ => .pure _
  | optional =>
      cases completed
      exact fun _ copies => .bind (Branch.preserves_fork copies) fun _ => .pure _
  | repetition shape =>
      cases completed
      exact shape.preserves_step (below rfl)
  | whitespace =>
      cases completed
      exact Whitespace.preserves_step (handler rfl)
  | defined shape => simp [isBuiltIn] at builtIn
  | custom shape => simp [isBuiltIn] at builtIn

end Kind

namespace Rule

/-- What a call runs of these rules preserves the worlds: handlers of the kinds that emit at
once, definitions, and what the kinds that open a child and the definitions begin. -/
inductive Begins (P : H.World → Prop) : Rule H → Prop
  | builtIn {kind : Kind H} {options : RuleOptions H} {children : List (Rule H)}
      (known : kind.isBuiltIn = true)
      (handler : kind.onset = .emits → Emission.HandlerPreserves P options.onEmission)
      (below : kind.onset = .opens → ∀ child ∈ children, Begins P child) :
      Begins P (.node kind options children)
  | defined {defined : Defined H} {options : RuleOptions H} {children : List (Rule H)}
      (rules : Branch H → H.World → Rule H)
      (answers : ∀ branch world parser,
        (defined.create branch world).result.parser = .ok parser →
          (rules branch world).build = .ok parser)
      (creates : ∀ branch, (defined.create branch).Preserves P)
      (within : ∀ branch world, Begins P (rules branch world)) :
      Begins P (.node (.defined defined) options children)

variable {rule : Rule H} {parser : Parser H}

theorem Begins.preserves (begins : rule.Begins P) (built : rule.build = .ok parser) :
    parser.Preserves P := by
  induction begins generalizing parser with
  | @builtIn kind options children known handler _ ih =>
      obtain ⟨parsers, below, made⟩ := build_eq_ok built
      refine Kind.preserves_build known handler (fun opens child member => ?_) made
      obtain ⟨rule, among, childBuilt⟩ := exists_of_mem_forall₂ (buildAll_eq_ok below) member
      exact ih opens rule among childBuilt
  | @defined defined options children rules answers creates _ ih =>
      obtain ⟨parsers, _, made⟩ := build_eq_ok built
      obtain ⟨prepared, _, completed, rfl⟩ := Matcher.build_eq_ok made
      apply Parser.preserves_around
      refine Defined.preserves_step prepared creates fun branch world parser answered => ?_
      exact ih branch world (answers branch world parser answered)

end Rule

theorem Logs.preserves_note {entry other : String} (different : other ≠ entry) :
    (Logs.note other).Preserves (Logs.Lacks entry) := by
  intro log missing
  refine ⟨rfl, ?_⟩
  rw [Logs.Lacks] at missing ⊢
  simp [Logs.note, Action.change, missing, different.symm]

namespace Grammar

variable {rule : Rule H} {parser : Parser H} {holder : Holder H}

theorem preserves_results (preserves : parser.Preserves P) (inits : holder.init.Preserves P)
    (copies : ∀ data, (holder.copy data).Preserves P) (input : Text) (options : ParseOptions) :
    (results { parser, holder } input options).Preserves P :=
  .bind (.bind inits fun _ => .pure _) fun _ => .bind (preserves _ copies) fun _ => .pure _

/-- Where no results are wanted there is nothing to pull. -/
theorem results_none_wanted {grammar : Grammar H} {input : Text} {options : ParseOptions}
    (none_wanted : options.maxResults = some 0) (world later : H.World) :
    (grammar.results input options world).result.pull later = .ended [] later := by
  have selected : ∃ items, (grammar.results input options world).result = options.select items :=
    ⟨_, rfl⟩
  obtain ⟨items, selected⟩ := selected
  rw [selected, ParseOptions.select, none_wanted]
  exact Run.pull_capped_zero _ _ later

/-- A call runs what the head of the grammar runs at once and nothing else, and a whole run
that is capped at no results runs nothing more. -/
theorem parse_begins (begins : rule.Begins P) (built : rule.build = .ok parser)
    (inits : holder.init.Preserves P) (copies : ∀ data, (holder.copy data).Preserves P)
    (input : Text) (options : ParseOptions) :
    (parse { parser, holder } input options).Preserves P ∧
      (options.maxResults = some 0 →
        (∀ count, (parse { parser, holder } input options >>= Cursor.pulls count).Preserves P) ∧
        (parseAll { parser, holder } input options).Preserves P) := by
  have called := preserves_results (begins.preserves built) inits copies input options
  refine ⟨.bind called fun _ => .pure _, fun none_wanted => ⟨fun count => ?_, ?_⟩⟩
  · simp only [parse, bind_assoc, pure_bind]
    refine .bind called fun world => .pulls_ended (results_none_wanted none_wanted world) count
  · refine .bind called fun world later within => ?_
    rw [Run.collect_apply, results_none_wanted none_wanted world later]
    exact ⟨rfl, within⟩

/-- A definition whose word may hold a literal. -/
def hesitant : Rule Host.logs :=
  .node (.defined {
    name := "hesitant"
    objection? := none
    create := fun branch => return {
      parser := (Rule.node (.word {}) {} [.node .optional {} [Logs.literal "on"]]).build
      contexts := branch.contexts }
  }) {} []

theorem hesitant_begins : hesitant.Begins (Logs.Lacks "on") := by
  refine .defined (fun _ _ => _) (fun _ _ _ answered => answered) (fun _ => .pure _) fun _ _ => ?_
  refine .builtIn rfl (fun emits => by contradiction) fun _ child member => ?_
  rw [List.mem_singleton.mp member]
  exact .builtIn rfl (fun emits => by contradiction) fun opens => by contradiction

/-- The literal is asked by the pull, and not by the call. -/
theorem parse_begins_hesitant : ∃ parser, hesitant.build = .ok parser ∧
    ((parse { parser, holder := Logs.holder } "on".toList {}) []).world = ["init", "copy"] ∧
    ((parse { parser, holder := Logs.holder } "on".toList {} >>= Cursor.pulls 1) []).world =
      ["init", "copy", "on"] ∧
    (parse { parser, holder := Logs.holder } "on".toList { maxResults := some 0 }).Preserves
      (Logs.Lacks "on") ∧
    (parseAll { parser, holder := Logs.holder } "on".toList { maxResults := some 0 }).Preserves
      (Logs.Lacks "on") := by
  have inits : Logs.holder.init.Preserves (Logs.Lacks "on") := Logs.preserves_note (by decide)
  have copies : ∀ data, (Logs.holder.copy data).Preserves (Logs.Lacks "on") :=
    fun _ => Logs.preserves_note (by decide)
  have begun {parser : Parser Host.logs} (built : hesitant.build = .ok parser) :=
    parse_begins hesitant_begins built inits copies "on".toList { maxResults := some 0 }
  refine ⟨_, rfl, ?_, ?_, (begun rfl).1, ((begun rfl).2 rfl).2⟩
  · decide +kernel
  · decide +kernel

/-- A literal asks its handler when it is begun: the call does so without a pull, and so does
a run that is capped at no results. -/
theorem call_asks : ∃ parser, (Logs.literal "on").build = .ok parser ∧
    ((parse { parser, holder := .plain () } "on".toList {}) []).world = ["on"] ∧
    ((parseAll { parser, holder := .plain () } "on".toList { maxResults := some 0 }) []).world =
      ["on"] := by
  refine ⟨_, rfl, ?_, ?_⟩
  · decide +kernel
  · decide +kernel

end Grammar

end Typeahead
