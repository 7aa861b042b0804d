import Mathlib.Data.List.Induction
import Typeahead.Proofs.Search.Pick

namespace Typeahead

/-! What a pick makes of finished branches.

A pick goes on behind every branch that a chain left, finished or not, and each child
passes a finished branch on as it is.  Behind a finished branch it is therefore found
again, once for every arrangement of children that its chain did not use. -/

variable {H : Host}

/-- The parser passes finished branches on as they are. -/
def Parser.Passes (parser : Parser H) : Prop :=
  ∀ branch items, branch.isFinished = true → (parser.start branch).Gives items →
    items = [.ok branch]

theorem Rule.passes_children {rules : List (Rule H)} {children : List (Parser H)}
    (builtAll : Rule.buildAll rules = .ok children) : ∀ child ∈ children, child.Passes := by
  intro child member branch items finished gives
  obtain ⟨rule, _, built⟩ := exists_of_mem_forall₂ (Rule.buildAll_eq_ok builtAll) member
  exact Rule.isFinished_passes built finished gives

namespace Pick

variable {children : List (Parser H)} {front more : Address} {branch rest next : Branch H}
  {findings : Findings (Item H)}

/-- Some of the children, none of them twice and none of them used on the way, each at the
place of the one branch that it passes on. -/
structure Arranged (count : Nat) (front more : Address) : Prop where
  known : ∀ step ∈ more, step.1 < count ∧ step.2 = 0
  distinct : (more.map Prod.fst).Nodup
  unused : ∀ step ∈ more, step.1 ∉ front.map Prod.fst

theorem arranged_nil (count : Nat) (front : Address) : Arranged count front [] :=
  ⟨by simp, by simp, by simp⟩

theorem arranged_concat {count : Nat} {step : Nat × Nat} :
    Arranged count front (more ++ [step]) ↔ Arranged count front more ∧
      (step.1 < count ∧ step.2 = 0) ∧ step.1 ∉ (front ++ more).map Prod.fst := by
  constructor
  · rintro ⟨known, distinct, unused⟩
    have last : step ∈ more ++ [step] := by simp
    rw [List.map_append, List.nodup_append] at distinct
    obtain ⟨before, _, apart⟩ := distinct
    refine ⟨⟨?_, before, ?_⟩, known step last, ?_⟩
    · intro other member
      exact known other (List.mem_append_left _ member)
    · intro other member
      exact unused other (List.mem_append_left _ member)
    · rw [List.map_append, List.mem_append, not_or]
      exact ⟨unused step last, fun used => apart step.1 used step.1 (by simp) rfl⟩
  · rintro ⟨⟨known, distinct, unused⟩, here, fresh⟩
    rw [List.map_append, List.mem_append, not_or] at fresh
    constructor
    case known =>
      intro other member
      rcases List.mem_append.mp member with before | last
      · exact known other before
      · exact List.mem_singleton.mp last ▸ here
    case distinct =>
      rw [List.map_append, List.nodup_append]
      refine ⟨distinct, by simp, ?_⟩
      intro used among last only same
      rw [same, List.mem_singleton.mp only] at among
      exact fresh.2 among
    case unused =>
      intro other member
      rcases List.mem_append.mp member with before | last
      · exact unused other before
      · exact List.mem_singleton.mp last ▸ fresh.1

/-- Each child that was not used passes a finished branch on. -/
theorem Tries.passed {heads : Nat → List (Item H)} {label : Nat}
    (tries : Tries children.zipIdx front rest heads) (passes : ∀ child ∈ children, child.Passes)
    (finished : rest.isFinished = true) (bound : label < children.length)
    (fresh : label ∉ front.map Prod.fst) :
    ∃ data lineage, heads label = [.ok { rest with data, lineage }] := by
  obtain ⟨copy, copied, gives⟩ := tries.unused children[label] label
    (List.mem_zipIdx_iff_getElem?.mpr (List.getElem?_eq_getElem bound)) fresh
  obtain ⟨data, rfl⟩ := Branch.fork_results copied
  exact ⟨data, _, passes _ (List.getElem_mem bound) _ _ finished gives⟩

theorem Tries.refused {heads : Nat → List (Item H)} {label : Nat}
    (tries : Tries children.zipIdx front rest heads)
    (out : ¬ (label < children.length ∧ label ∉ front.map Prod.fst)) : heads label = [] := by
  by_contra found
  obtain ⟨⟨child, among⟩, fresh⟩ := tries.only label found
  exact out ⟨(List.mem_zipIdx' among).1, fresh⟩

/-- A finished branch is found again behind every arrangement of children that were not
used on the way to it, and nothing else is found behind it. -/
theorem again_of_finished (follows : findings.Follows (Tries children.zipIdx) branch)
    (passes : ∀ child ∈ children, child.Passes)
    (found : findings.at? front = some (.ok next)) (finished : next.isFinished = true)
    (more : Address) :
    (Arranged children.length front more →
      ∃ data lineage, findings.at? (front ++ more) = some (.ok { next with data, lineage })) ∧
    (¬ Arranged children.length front more → findings.at? (front ++ more) = none) := by
  -- the arrangement grows at its end, where the branch that is found again is tried
  induction more using List.reverseRecOn with
  | nil =>
      rw [List.append_nil]
      exact ⟨fun _ => ⟨next.data, next.lineage, found⟩,
        fun missing => absurd (arranged_nil _ _) missing⟩
  | append_singleton more step ih =>
      rw [arranged_concat, ← List.append_assoc, Findings.at?_concat]
      by_cases arranged : Arranged children.length front more
      · obtain ⟨data, lineage, again⟩ := ih.1 arranged
        obtain ⟨rest, copied, tries⟩ := follows.further _ _ again
        obtain ⟨data', rfl⟩ := Branch.fork_results copied
        constructor
        · rintro ⟨_, ⟨bound, first⟩, fresh⟩
          obtain ⟨data'', lineage', passed⟩ := tries.passed passes finished bound fresh
          exact ⟨data'', lineage', by rw [passed, first]; rfl⟩
        · intro refused
          by_cases fresh : step.1 < children.length ∧ step.1 ∉ (front ++ more).map Prod.fst
          · obtain ⟨data'', lineage', passed⟩ := tries.passed passes finished fresh.1 fresh.2
            have later : step.2 ≠ 0 := fun first => refused ⟨arranged, ⟨fresh.1, first⟩, fresh.2⟩
            rw [passed, List.getElem?_eq_none_iff, List.length_singleton]
            omega
          · rw [tries.refused fresh, List.getElem?_nil]
      · have nothing := ih.2 arranged
        have entered : front ++ more ≠ [] := by
          intro empty
          rw [(List.append_eq_nil_iff.mp empty).1] at found
          contradiction
        have stopped : findings (front ++ more) = fun _ => [] :=
          follows.stops _ entered fun before => by simp [nothing]
        exact ⟨fun further => absurd further.1 arranged,
          fun _ => by rw [stopped, List.getElem?_nil]⟩

end Pick

namespace Kind

variable {shape : Pick} {rules : List (Rule H)} {children : List (Parser H)}
  {options : RuleOptions H} {parser : Parser H} {branch : Branch H} {items : List (Item H)}

/-- A pick that runs lists a finished branch once for the chain that left it, and once more
for every arrangement of children that this chain did not use. -/
theorem pick_repeats_finished (builtAll : Rule.buildAll rules = .ok children)
    (built : (Kind.pick shape).build options children = .ok parser)
    (gives : (parser.start branch).Gives items) :
    ((branch.isFinished = true ∨ options.enabled (.pick shape) = false ∨
        branch.input = [] ∧ (options.placeholder ≠ none ∨ options.requiresInput = true)) ∧
      ∃ only, items = [only]) ∨
      ∃ (findings : Findings (Item H)) (all : List (Item H)),
        findings.Follows (Pick.Tries children.zipIdx) (branch.pushStack "pick") ∧
        findings.Lists all ∧ items = (shape.cut all).map (·.map Branch.popStack) ∧
        ∀ front next, findings.at? front = some (.ok next) → next.isFinished = true →
          ∀ more,
            (Pick.Arranged children.length front more → ∃ data lineage,
              findings.at? (front ++ more) = some (.ok { next with data, lineage })) ∧
            (¬ Pick.Arranged children.length front more →
              findings.at? (front ++ more) = none) := by
  obtain ⟨prepared, _, completed, rfl⟩ := Matcher.build_eq_ok built
  cases completed
  cases Parser.gives_relayed gives with
  | matched unfinished found =>
      obtain ⟨findings, all, follows, lists, rfl⟩ := Pick.step_search found
      refine .inr ⟨findings, all, follows, lists, rfl, ?_⟩
      intro front next there finished more
      exact Pick.again_of_finished follows (Rule.passes_children builtAll) there finished more
  | passed off => exact .inl ⟨off.imp_right .inl, _, rfl⟩
  | finished required used => exact .inl ⟨.inr (.inr ⟨used, .inr required⟩), _, rfl⟩
  | shown _ used placeholder | fellBack _ used _ placeholder =>
      have shows : options.placeholder ≠ none := Option.ne_none_iff_exists'.mpr ⟨_, placeholder⟩
      exact .inl ⟨.inr (.inr ⟨used, .inl shows⟩), _, rfl⟩

/-- A letter that shows a placeholder, and another letter. -/
def hinted : List (Rule Host.quiet) := [
  .node (.literal { text := ['a'] }) { placeholder := some ['x'] } [],
  .node (.literal { text := ['b'] }) {} []]

theorem hinted_found : ∃ children parser items,
    Rule.buildAll hinted = .ok children ∧ (Kind.pick {}).build {} children = .ok parser ∧
    (parser.start untouched).Gives items ∧
    (items.map fun item => item.toOption.map fun next => Part.contents next.parts) =
      [some ['x'], some ['x'], some ['b'], some ['b', 'x']] := by
  obtain ⟨children, builtAll⟩ : ∃ children, Rule.buildAll hinted = .ok children := ⟨_, rfl⟩
  obtain ⟨parser, built⟩ : ∃ parser, (Kind.pick {}).build {} children = .ok parser := by
    cases builtAll
    exact ⟨_, rfl⟩
  have found : (((parser.start untouched ()).result.toList ()).result.map fun item =>
      item.toOption.map fun next => Part.contents next.parts) =
        [some ['x'], some ['x'], some ['b'], some ['b', 'x']] := by
    cases builtAll
    cases built
    decide +kernel
  have gives := Action.gives_toList (parser.start untouched) () ()
  exact ⟨children, parser, _, builtAll, built, gives, found⟩

theorem pick_repeats_finished_hinted : ∃ children parser items,
    Rule.buildAll hinted = .ok children ∧ (Kind.pick {}).build {} children = .ok parser ∧
    (parser.start untouched).Gives items ∧
    (items.map fun item => item.toOption.map fun next => Part.contents next.parts) =
      [some ['x'], some ['x'], some ['b'], some ['b', 'x']] ∧
    ∃ (findings : Findings (Item Host.quiet)) (all : List (Item Host.quiet)),
      findings.Follows (Pick.Tries children.zipIdx) (untouched.pushStack "pick") ∧
      findings.Lists all ∧ items = (Pick.cut {} all).map (·.map Branch.popStack) ∧
      ∀ front next, findings.at? front = some (.ok next) → next.isFinished = true →
        ∀ more,
          (Pick.Arranged children.length front more → ∃ data lineage,
            findings.at? (front ++ more) = some (.ok { next with data, lineage })) ∧
          (¬ Pick.Arranged children.length front more →
            findings.at? (front ++ more) = none) := by
  obtain ⟨children, parser, items, builtAll, built, gives, found⟩ := hinted_found
  refine ⟨children, parser, items, builtAll, built, gives, found, ?_⟩
  apply (pick_repeats_finished builtAll built gives).resolve_left
  rintro ⟨finished | off | ⟨_, shows | required⟩, _⟩
  · contradiction
  · contradiction
  · exact shows rfl
  · contradiction

/-- The other letter is tried behind the placeholder, and the placeholder is found again. -/
theorem pick_extends_finished : ∃ children parser items,
    Rule.buildAll hinted = .ok children ∧ (Kind.pick {}).build {} children = .ok parser ∧
    (parser.start untouched).Gives items ∧ untouched.isFinished = false ∧
    (items.map fun item => item.toOption.map fun next => Part.contents next.parts) =
      [some ['x'], some ['x'], some ['b'], some ['b', 'x']] ∧
    ¬ ∃ (findings : Findings (Item Host.quiet)) (all : List (Item Host.quiet)),
      findings.Follows (Pick.Tries children.zipIdx) (untouched.pushStack "pick") ∧
      findings.Lists all ∧ items = all.map (·.map Branch.popStack) ∧
      ∀ front next, findings.at? front = some (.ok next) → next.isFinished = true →
        ∀ more, more ≠ [] → findings.at? (front ++ more) = none := by
  obtain ⟨children, parser, items, builtAll, built, gives, found⟩ := hinted_found
  refine ⟨children, parser, items, builtAll, built, gives, rfl, found, ?_⟩
  rintro ⟨findings, all, follows, _, _, ends⟩
  have shown : ∃ next, findings.at? [(0, 0)] = some (.ok next) ∧ next.isFinished = true := by
    cases builtAll
    obtain ⟨copy, copied, started⟩ := follows.here.unused _ 0 List.mem_cons_self List.not_mem_nil
    obtain ⟨data, rfl⟩ := Branch.fork_results copied
    rw [Findings.at?_one, Run.gives_one (Action.gives_pure started)]
    exact ⟨_, rfl, rfl⟩
  obtain ⟨next, first, finished⟩ := shown
  have two : children.length = 2 := by
    cases builtAll
    rfl
  have arranged : Pick.Arranged children.length [(0, 0)] [(1, 0)] := by
    rw [two]
    exact ⟨by simp, by simp, by simp⟩
  obtain ⟨data, lineage, again⟩ := (Pick.again_of_finished follows
    (Rule.passes_children builtAll) first finished [(1, 0)]).1 arranged
  rw [ends [(0, 0)] next first finished [(1, 0)] (by simp)] at again
  contradiction

end Kind

end Typeahead
