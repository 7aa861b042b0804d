import Mathlib.Data.List.Forall2
import Typeahead.Rule

namespace Typeahead

/-! Trees of rules.

Building goes from the leaves to the root.  A property of parsers that every kind
passes on from the children to the parser is a property of every built tree. -/

/-- An owner that keeps nothing. -/
abbrev Host.quiet : Host := ⟨Unit, Unit, Unit, Unit⟩

variable {H : Host}

theorem Except.bind_eq_ok {ε α β : Type} {first : Except ε α} {next : α → Except ε β} {result : β}
    (answered : (first >>= next) = .ok result) :
    ∃ middle, first = .ok middle ∧ next middle = .ok result := by
  cases first with
  | error cause => contradiction
  | ok middle => exact ⟨middle, rfl, answered⟩

theorem Matcher.build_eq_ok {matcher : Matcher H} {enabled : Bool} {settings : Settings H}
    {parser : Parser H} (built : matcher.build enabled settings = .ok parser) :
    ∃ prepared, matcher.check settings = .ok () ∧ matcher.prepare settings = .ok prepared ∧
      parser = .around matcher.name enabled prepared (matcher.step prepared) := by
  obtain ⟨_, checked, rest⟩ := Except.bind_eq_ok built
  obtain ⟨prepared, completed, made⟩ := Except.bind_eq_ok rest
  exact ⟨prepared, checked, completed, (Except.ok.inj made).symm⟩

namespace Settings

variable {settings : Settings H} {parser : String}

theorem expectChildren_eq_ok {expected : Nat}
    (checked : settings.expectChildren parser expected = .ok ()) :
    settings.children.length = expected := by
  rw [expectChildren] at checked
  split at checked
  · assumption
  · contradiction

end Settings

theorem Literal.check_eq_ok {literal : Literal} {settings : Settings H}
    (checked : literal.matcher.check settings = .ok ()) : literal.text ≠ [] := by
  intro empty
  simp [matcher, empty] at checked

theorem Repetition.check_eq_ok {repetition : Repetition} {settings : Settings H}
    (checked : repetition.matcher.check settings = .ok ()) :
    ∀ glue ∈ repetition.glue, glue ≠ [] := by
  obtain ⟨_, _, rest⟩ := Except.bind_eq_ok checked
  intro glue member empty
  have refused : (repetition.glue.isEmpty || repetition.glue.any (·.isEmpty)) = true := by
    rw [Bool.or_eq_true, List.any_eq_true]
    exact .inr ⟨glue, member, by simp [empty]⟩
  rw [if_pos refused] at rest
  contradiction

namespace Rule

/-- A property of the kind and the options of every rule of a tree. -/
inductive Every (P : Kind H → RuleOptions H → Prop) : Rule H → Prop
  | node {kind : Kind H} {options : RuleOptions H} {children : List (Rule H)}
      (here : P kind options) (below : ∀ child ∈ children, Every P child) :
      Every P (.node kind options children)

theorem build_eq_ok {kind : Kind H} {options : RuleOptions H} {children : List (Rule H)}
    {parser : Parser H} (built : (node kind options children).build = .ok parser) :
    ∃ parsers, buildAll children = .ok parsers ∧ kind.build options parsers = .ok parser := by
  rw [build] at built
  exact Except.bind_eq_ok built

theorem buildAll_eq_ok {rules : List (Rule H)} {parsers : List (Parser H)}
    (built : buildAll rules = .ok parsers) :
    List.Forall₂ (fun rule parser => rule.build = .ok parser) rules parsers := by
  induction rules generalizing parsers with
  | nil =>
      rw [buildAll] at built
      cases built
      exact .nil
  | cons rule others ih =>
      rw [buildAll] at built
      obtain ⟨parser, first, rest⟩ := Except.bind_eq_ok built
      obtain ⟨more, second, made⟩ := Except.bind_eq_ok rest
      cases made
      exact .cons first (ih second)

theorem Every.built {P : Kind H → RuleOptions H → Prop} {Q : Rule H → Parser H → Prop}
    (passed : ∀ kind options children parsers parser, P kind options →
      List.Forall₂ Q children parsers → kind.build options parsers = .ok parser →
      Q (.node kind options children) parser)
    {rule : Rule H} (every : rule.Every P) {parser : Parser H} (built : rule.build = .ok parser) :
    Q rule parser := by
  induction every generalizing parser with
  | @node kind options children here _ ih =>
      obtain ⟨parsers, below, made⟩ := build_eq_ok built
      refine passed kind options children parsers parser here ?_ made
      -- every child and its parser stand at the same place of the two lists
      have all := List.forall₂_iff_get.mp (buildAll_eq_ok below)
      refine List.forall₂_iff_get.mpr ⟨all.1, fun place inChildren inParsers => ?_⟩
      exact ih _ (List.get_mem children ⟨place, inChildren⟩) (all.2 place inChildren inParsers)

theorem Every.mono {P Q : Kind H → RuleOptions H → Prop} {rule : Rule H} (every : rule.Every P)
    (weaker : ∀ kind options, P kind options → Q kind options) : rule.Every Q := by
  induction every with
  | node here _ ih => exact .node (weaker _ _ here) ih

theorem Every.and {P Q : Kind H → RuleOptions H → Prop} {rule : Rule H} (first : rule.Every P)
    (second : rule.Every Q) : rule.Every fun kind options => P kind options ∧ Q kind options := by
  induction first with
  | node here _ ih =>
      cases second with
      | node here' below' =>
          exact .node ⟨here, here'⟩ fun child member => ih child member (below' child member)

end Rule

/-! ### Trees with other options -/

mutual

/-- The same tree, the options of every rule changed by its kind. -/
def Rule.mapOptions (change : Kind H → RuleOptions H → RuleOptions H) : Rule H → Rule H
  | .node kind options children =>
      .node kind (change kind options) (Rule.mapAllOptions change children)

def Rule.mapAllOptions (change : Kind H → RuleOptions H → RuleOptions H) :
    List (Rule H) → List (Rule H)
  | [] => []
  | rule :: others => rule.mapOptions change :: Rule.mapAllOptions change others

end

namespace Rule

variable {Q : Parser H → Parser H → Prop} {change change' : Kind H → RuleOptions H → RuleOptions H}

theorem mapAllOptions_eq_map (rules : List (Rule H)) :
    mapAllOptions change rules = rules.map (mapOptions change) := by
  induction rules with
  | nil => rw [mapAllOptions, List.map_nil]
  | cons rule others ih => rw [mapAllOptions, List.map_cons, ih]

theorem every_mapOptions {P P' : Kind H → RuleOptions H → Prop} {rule : Rule H}
    (every : rule.Every P)
    (changed : ∀ kind options, P kind options → P' kind (change kind options)) :
    (rule.mapOptions change).Every P' := by
  induction every with
  | node here _ ih =>
      rw [Rule.mapOptions]
      refine .node (changed _ _ here) fun child member => ?_
      rw [mapAllOptions_eq_map] at member
      obtain ⟨rule, among, rfl⟩ := List.mem_map.mp member
      exact ih rule among

theorem buildAll_mapAllOptions {rules : List (Rule H)} {parsers : List (Parser H)}
    (each : ∀ rule ∈ rules, ∀ parser, (rule.mapOptions change).build = .ok parser →
      ∃ parser', (rule.mapOptions change').build = .ok parser' ∧ Q parser parser')
    (built : buildAll (mapAllOptions change rules) = .ok parsers) :
    ∃ parsers', buildAll (mapAllOptions change' rules) = .ok parsers' ∧
      List.Forall₂ Q parsers parsers' := by
  induction rules generalizing parsers with
  | nil =>
      rw [mapAllOptions, buildAll] at built
      cases built
      exact ⟨[], by rw [mapAllOptions, buildAll]; rfl, .nil⟩
  | cons rule others ih =>
      rw [mapAllOptions, buildAll] at built
      obtain ⟨parser, first, rest⟩ := Except.bind_eq_ok built
      obtain ⟨more, second, made⟩ := Except.bind_eq_ok rest
      cases made
      obtain ⟨parser', first', related⟩ := each rule List.mem_cons_self parser first
      obtain ⟨more', second', below⟩ :=
        ih (fun rule member => each rule (List.mem_cons_of_mem _ member)) second
      refine ⟨parser' :: more', ?_, .cons related below⟩
      rw [mapAllOptions, buildAll, first', second']
      rfl

/-- What every kind passes on under two choices of options relates the two trees. -/
theorem Every.mapOptions_built {P : Kind H → RuleOptions H → Prop}
    (passed : ∀ kind options children children' parser, P kind options →
      List.Forall₂ Q children children' →
      kind.build (change kind options) children = .ok parser →
      ∃ parser', kind.build (change' kind options) children' = .ok parser' ∧ Q parser parser')
    {rule : Rule H} (every : rule.Every P) {parser : Parser H}
    (built : (rule.mapOptions change).build = .ok parser) :
    ∃ parser', (rule.mapOptions change').build = .ok parser' ∧ Q parser parser' := by
  induction every generalizing parser with
  | @node kind options children here _ ih =>
      rw [mapOptions] at built
      obtain ⟨parsers, below, made⟩ := build_eq_ok built
      obtain ⟨parsers', below', related⟩ :=
        buildAll_mapAllOptions (fun child member _ => ih child member) below
      obtain ⟨parser', made', result⟩ := passed kind options _ _ parser here related made
      refine ⟨parser', ?_, result⟩
      rw [mapOptions, build, below']
      exact made'

end Rule

end Typeahead
