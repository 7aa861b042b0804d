import Typeahead.Proofs.Extending.Kinds

namespace Typeahead

/-! Grammars of built-in kinds and of definitions that answer such grammars only extend
their branches. -/

variable {H : Host}

namespace Rule

/-- Rules of built-in kinds, and of definitions that answer by building such rules. -/
inductive Founded : Rule H → Prop
  | builtIn {kind : Kind H} {options : RuleOptions H} {children : List (Rule H)}
      (known : kind.isBuiltIn = true) (below : ∀ child ∈ children, Founded child) :
      Founded (.node kind options children)
  | defined {defined : Defined H} {options : RuleOptions H} {children : List (Rule H)}
      (rules : Branch H → H.World → Rule H)
      (answers : ∀ branch world parser,
        (defined.create branch world).result.parser = .ok parser →
          (rules branch world).build = .ok parser)
      (within : ∀ branch world, Founded (rules branch world)) :
      Founded (.node (.defined defined) options children)

variable {rule : Rule H} {parser : Parser H}

theorem BuiltIn.founded (builtIn : rule.BuiltIn) : rule.Founded := by
  induction builtIn with
  | node here _ ih => exact .builtIn here ih

theorem Founded.extending (founded : rule.Founded) (built : rule.build = .ok parser) :
    parser.Extending := by
  induction founded generalizing parser with
  | @builtIn kind options children known _ ih =>
      obtain ⟨parsers, below, made⟩ := build_eq_ok built
      refine Kind.extending_build known ?_ made
      intro child member
      obtain ⟨rule, among, childBuilt⟩ := exists_of_mem_forall₂ (buildAll_eq_ok below) member
      exact ih rule among childBuilt
  | @defined defined options children rules answers _ ih =>
      obtain ⟨parsers, _, made⟩ := build_eq_ok built
      obtain ⟨prepared, _, completed, rfl⟩ := Matcher.build_eq_ok made
      refine Parser.extending_around (Defined.extending_step ?_)
      intro branch world parser answered
      exact ih branch world (answers branch world parser answered)

theorem isFinished_passes {branch : Branch H} {items : List (Item H)}
    (built : rule.build = .ok parser) (finished : branch.isFinished = true)
    (gives : (parser.start branch).Gives items) : items = [.ok branch] := by
  obtain ⟨kind, options, children⟩ := rule
  obtain ⟨parsers, _, made⟩ := build_eq_ok built
  obtain ⟨prepared, _, _, rfl⟩ := Matcher.build_eq_ok made
  exact Parser.gives_finished finished gives

/-- A parser continues every branch it is given, and passes a finished one on alone. -/
theorem start_extends (founded : rule.Founded) (built : rule.build = .ok parser)
    (branch : Branch H) :
    (∀ next, (parser.start branch).Yields (.ok next) → branch.Extends next) ∧
      (branch.isFinished = true → ∀ items, (parser.start branch).Gives items →
        items = [.ok branch]) :=
  ⟨fun next yielded => founded.extending built branch _ yielded next rfl,
    fun finished _ => isFinished_passes built finished⟩

/-- A definition that answers the same rule wherever it is run. -/
def errand : Rule Host.quiet :=
  .node .optional {} [.node (.defined {
    name := "errand"
    objection? := none
    create := fun branch => return { parser := Grammar.stroll.build, contexts := branch.contexts }
  }) {} []]

theorem errand_founded : errand.Founded := by
  refine .builtIn rfl ?_
  intro child member
  rw [List.mem_singleton.mp member]
  exact .defined (fun _ _ => Grammar.stroll) (fun _ _ _ answered => answered)
    (fun _ _ => Grammar.stroll_builtIn.founded)

/-- A branch in the middle of a parse. -/
def midway : Branch Host.quiet where
  given := ['o', 'n', ' ', 'g', 'o']
  holder := .plain ()
  data := ()
  parts := [{ content := ['o', 'n', ' '], kind := .input }]
  stack := ["menu"]
  consumed := 3

theorem start_extends_errand : ∃ parser next,
    errand.build = .ok parser ∧ (parser.start midway).Yields (.ok next) ∧
    next.parts.map (·.kind) = [.input, .input, .whitespace, .suggestion, .suggestion] ∧
    midway.Extends next ∧
    (midway.finish.isFinished = true ∧ ∀ items, (parser.start midway.finish).Gives items →
      items = [.ok midway.finish]) := by
  obtain ⟨parser, built⟩ : ∃ parser, errand.build = .ok parser := ⟨_, rfl⟩
  have answers : errand.build.toOption.all (fun parser =>
      ((parser.start midway ()).result.toList ()).result.any fun
        | .ok next => next.parts.map (·.kind) =
            [.input, .input, .whitespace, .suggestion, .suggestion]
        | .error _ => false) = true := by decide +kernel
  rw [built] at answers
  obtain ⟨item, member, kinds⟩ := List.any_eq_true.mp answers
  cases item with
  | error cause => contradiction
  | ok next =>
      have yielded : (parser.start midway).Yields (.ok next) :=
        ⟨_, ⟨_, ⟨(), rfl⟩, Run.gives_toList _ ()⟩, member⟩
      exact ⟨parser, next, built, yielded, of_decide_eq_true kinds,
        (start_extends errand_founded built midway).1 next yielded, rfl,
        (start_extends errand_founded built midway.finish).2 rfl⟩

end Rule

end Typeahead
