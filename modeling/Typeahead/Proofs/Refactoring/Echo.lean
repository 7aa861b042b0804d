import Typeahead.Proofs.Extending.Rule
import Typeahead.Proofs.Refactoring.Stage
import Typeahead.Proofs.Run.Levels
import Typeahead.Proofs.Twins.Reading

namespace Typeahead

/-! Trees as ways of continuing a branch.

A branch echoes another when they read the same input with the same data, whatever
parsers are active and however often each of them was copied.  What a plain sequence
makes of a branch echoes what its children make of it one after the other, and what a
plain fork makes of it echoes what they make of it beside each other. -/

variable {H : Host}

/-- The same input, the same data, and any active parsers. -/
def Likeness.sameText : Likeness H := { caseSensitive := true, sameStack := false, data := Eq }

/-- Copies of data are the data again. -/
def Holder.CopiesPlainly (holder : Holder H) : Prop :=
  ∀ data answer, (holder.copy data).Results answer → answer = data

theorem Holder.CopiesPlainly.twins {holder : Holder H} (plain : holder.CopiesPlainly)
    (begins : holder.init.Steady) : holder.Twins .sameText holder where
  init := begins.agree
  copy data _ same := by
    cases same
    intro answer answer' answered answered'
    exact (plain data answer answered).trans (plain data answer' answered').symm

namespace Branch

structure Echoes (branch twin : Branch H) : Prop where
  twins : branch.Twins .sameText twin
  plain : branch.holder.CopiesPlainly

namespace Echoes

variable {branch twin copy : Branch H}

theorem withStack (echoes : branch.Echoes twin) (stack : List String) :
    Echoes { branch with stack } twin where
  twins := { echoes.twins with stack := fun same => absurd same (by simp [Likeness.sameText]) }
  plain := echoes.plain

theorem fork (echoes : branch.Echoes twin) (copied : branch.fork.Results copy) :
    copy.Echoes twin := by
  obtain ⟨data, answered, made⟩ := Action.results_bind copied
  cases Action.results_pure made
  rw [echoes.plain branch.data data answered]
  exact ⟨{ echoes.twins with }, echoes.plain⟩

theorem toResult_eq (echoes : branch.Echoes twin) : branch.toResult = twin.toResult := by
  have data : branch.data = twin.data := echoes.twins.data
  rw [toResult, toResult, score, score, echoes.twins.input_eq rfl, echoes.twins.parts,
    echoes.twins.factors, data]

theorem results_eq {left right : List (Branch H)} (echoes : List.Forall₂ Echoes left right) :
    left.map toResult = right.map toResult := by
  have same : List.Forall₂ Eq (left.map toResult) (right.map toResult) :=
    List.forall₂_map_left_iff.mpr
      (List.forall₂_map_right_iff.mpr (echoes.imp fun _ _ same => same.toResult_eq))
  rwa [List.forall₂_eq_eq_eq] at same

/-- Two fresh branches over one input. -/
theorem root {given : Text} {holder : Holder H} {root root' : Branch H}
    (plain : holder.CopiesPlainly) (begins : holder.init.Steady)
    (rooted : (Branch.root given holder).Results root)
    (rooted' : (Branch.root given holder).Results root') : root.Echoes root' where
  twins := Branch.Twins.root (.refl given) (plain.twins begins) root root' rooted rooted'
  plain := by
    obtain ⟨_, rfl⟩ := root_results rooted
    exact plain

end Echoes

/-! ### The holder of a branch -/

def HeldBy (holder : Holder H) (branch : Branch H) : Prop := branch.holder = holder

theorem carried_heldBy (holder : Holder H) : Carried (HeldBy holder) where
  copied _ _ held copied := by
    obtain ⟨data, rfl⟩ := fork_results copied
    exact held
  stacked _ _ held := held
  finished _ held := held

theorem heldBy_add {holder : Holder H} {branch : Branch H} (held : branch.HeldBy holder)
    (part : Part) : Item.Holds (HeldBy holder) (branch.add part) := by
  intro next added
  obtain ⟨consumed, pastEnd, rfl⟩ := add_eq_ok added
  exact held

theorem absorbs_heldBy (holder : Holder H) (marker : Option Marker) :
    Absorbs (HeldBy holder) marker where
  copied := (carried_heldBy holder).copied
  part _ _ _ held := heldBy_add held _
  factor _ _ held := by
    intro next added
    rw [addScore_eq_ok added]
    exact held
  data _ _ held := held

end Branch

theorem Repetition.absorbed_heldBy (repetition : Repetition) (holder : Holder H) :
    repetition.Absorbed (Branch.HeldBy holder) where
  glued _ _ overlap _ held _ := (Branch.absorbs_heldBy holder none).addOverlap held overlap
  held _ _ _ held :=
    Item.holds_bind (Branch.heldBy_add held _) fun _ held => Item.holds_ok held

theorem Rule.BuiltIn.keeps_holder {rule : Rule H} {parser : Parser H} (builtIn : rule.BuiltIn)
    (built : rule.build = .ok parser) (holder : Holder H) :
    parser.Keeps (Branch.HeldBy holder) := by
  refine Every.built (Q := fun _ parser => parser.Keeps (Branch.HeldBy holder)) ?_ builtIn built
  intro kind options children parsers parser known below made
  refine Kind.keeps_build known (Branch.carried_heldBy holder) (Branch.absorbs_heldBy holder _)
    (fun repetition _ => repetition.absorbed_heldBy holder) ?_ made
  intro child member
  obtain ⟨_, _, keeps⟩ := exists_of_mem_forall₂ below member
  exact keeps

/-! ### Echoes of stages -/

namespace Stage

variable {stage twin : Stage H} {stages twins : List (Stage H)} {branch branch' : Branch H}
  {live live' left left' : List (Branch H)}

def Echoes (stage twin : Stage H) : Prop :=
  ∀ branch branch', branch.Echoes branch' → ∀ left left', stage branch left →
    twin branch' left' → List.Forall₂ Branch.Echoes left left'

theorem Echoes.narrow {wide : Stage H} (echoes : stage.Echoes wide)
    (narrow : ∀ branch left, twin branch left → wide branch left) : stage.Echoes twin :=
  fun branch branch' same left left' ran ran' =>
    echoes branch branch' same left left' ran (narrow branch' left' ran')

/-- On a copy of the branch. -/
def onCopy (stage : Stage H) : Stage H := fun branch left =>
  ∃ copy, branch.fork.Results copy ∧ stage copy left

theorem Echoes.onCopy (echoes : stage.Echoes twin) : stage.onCopy.Echoes twin := by
  rintro branch branch' same left left' ⟨copy, copied, begun⟩ begun'
  exact echoes copy branch' (same.fork copied) left left' begun begun'

theorem Echoes.each (echoes : stage.Echoes twin) (same : List.Forall₂ Branch.Echoes live live')
    (ran : stage.Each live left) (ran' : twin.Each live' left') :
    List.Forall₂ Branch.Echoes left left' := by
  induction same generalizing left left' with
  | nil =>
      cases ran
      cases ran'
      exact .nil
  | cons first _ ih =>
      obtain ⟨here, more, begun, rest, rfl⟩ := ran
      obtain ⟨here', more', begun', rest', rfl⟩ := ran'
      exact List.rel_append (echoes _ _ first _ _ begun begun') (ih rest rest')

theorem chain_echoes (echoes : List.Forall₂ Echoes stages twins) :
    (chain stages).Echoes (chain twins) := by
  induction echoes with
  | nil =>
      rintro branch branch' same _ _ rfl rfl
      exact .cons same .nil
  | cons first _ ih =>
      rintro branch branch' same left left' ⟨middle, begun, rest⟩ ⟨middle', begun', rest'⟩
      exact ih.each (first branch branch' same middle middle' begun begun') rest rest'

theorem beside_echoes (echoes : List.Forall₂ Echoes stages twins) (same : branch.Echoes branch')
    (ran : Beside stages branch left) (ran' : Beside twins branch' left') :
    List.Forall₂ Branch.Echoes left left' := by
  induction echoes generalizing left left' with
  | nil =>
      cases ran
      cases ran'
      exact .nil
  | cons first _ ih =>
      obtain ⟨here, more, begun, rest, rfl⟩ := ran
      obtain ⟨here', more', begun', rest', rfl⟩ := ran'
      exact List.rel_append (first _ _ same _ _ begun begun') (ih rest rest')

end Stage

/-! ### Parsers as stages -/

/-- The branches that the parser yields. -/
def Parser.stage (parser : Parser H) : Stage H := fun branch left =>
  ∃ items, (parser.start branch).Gives items ∧ left = Sequence.branchesOf items

namespace Sequence

variable {children : List (Parser H)} {child : Parser H} {live survivors : List (Branch H)}
  {items : List (Item H)} {errors : List Error}

theorem each_of_level (ran : (level child live).Results items) :
    child.stage.Each live (branchesOf items) := by
  obtain ⟨groups, grouped, rfl⟩ := groups_of_level ran
  clear ran
  induction grouped with
  | nil => rfl
  | cons first _ ih => exact ⟨_, _, ⟨_, first, rfl⟩, ih, List.filterMap_append⟩

theorem each_of_levels (ran : (levels children live).Results (errors, survivors)) :
    (Stage.chain (children.map Parser.stage)).Each live survivors := by
  induction children generalizing live errors survivors with
  | nil =>
      cases Action.results_pure ran
      exact Stage.each_pass.mpr rfl
  | cons child others ih =>
      obtain ⟨items, later, ofLevel, ofOthers, rfl⟩ := levels_cons ran
      exact Stage.each_andThen.mpr ⟨branchesOf items, each_of_level ofLevel, ih ofOthers⟩

theorem branchesOf_popped (items : List (Item H)) :
    branchesOf (items.map (·.map Branch.popStack)) = (branchesOf items).map Branch.popStack := by
  rw [branchesOf, branchesOf, List.filterMap_map, List.map_filterMap]
  congr
  funext item
  cases item <;> rfl

/-- What comes through a sequence, whatever failed on the way. -/
theorem branchesOf_survivors (errors : List Error) (survivors : List (Branch H)) :
    branchesOf (errors.map .error ++ survivors.map .ok : List (Item H)) = survivors := by
  induction errors with
  | nil =>
      rw [List.map_nil, List.nil_append, branchesOf, List.filterMap_map]
      exact List.filterMap_some
  | cons cause others ih => exact ih

end Sequence

theorem Fork.beside_of_step {settings : Settings H} {branch : Branch H} {items : List (Item H)}
    (gives : (Fork.step settings branch).Gives items) :
    Stage.Beside (settings.children.map (·.stage.onCopy)) branch (Sequence.branchesOf items) := by
  obtain ⟨groups, grouped, rfl⟩ := Run.gives_concatMap (Action.gives_pure gives)
  clear gives
  generalize settings.children = children at grouped ⊢
  induction grouped with
  | nil => rfl
  | cons first _ ih =>
      obtain ⟨copy, copied, given⟩ := Action.gives_bind first
      exact ⟨_, _, ⟨copy, copied, _, given, rfl⟩, ih, List.filterMap_append⟩

namespace Rule

variable {rule : Rule H} {rules : List (Rule H)} {twins : List (Stage H)}

/-- The branches that the tree yields once it is built. -/
def stage (rule : Rule H) : Stage H := fun branch left =>
  ∃ parser, rule.build = .ok parser ∧ parser.stage branch left

theorem stage_passes (rule : Rule H) : rule.stage.Passes := by
  rintro branch _ finished ⟨parser, built, items, gives, rfl⟩
  rw [isFinished_passes built finished gives]
  rfl

theorem stage_total {parser : Parser H} (built : rule.build = .ok parser) (world : H.World) :
    rule.stage.Total :=
  fun branch => ⟨_, parser, built, _, Action.gives_toList (parser.start branch) world world, rfl⟩

theorem Steady.echoes (steady : rule.Steady) : rule.stage.Echoes rule.stage := by
  rintro branch branch' same _ _ ⟨parser, built, items, gives, rfl⟩
    ⟨parser', built', items', gives', rfl⟩
  cases built.symm.trans built'
  have related := (steady.twins rfl rfl built branch branch' same.twins).gives gives gives'
  have plain : ∀ next ∈ Sequence.branchesOf items, next.holder.CopiesPlainly := by
    intro next member
    have held : next.holder = branch.holder :=
      steady.builtIn.keeps_holder built branch.holder branch _ rfl
        ⟨items, gives, Sequence.mem_branchesOf.mp member⟩ next rfl
    rw [held]
    exact same.plain
  have both := (List.forall₂_and_left _ _).mpr ⟨plain, Sequence.twins_branchesOf related⟩
  exact both.imp fun _ _ ⟨plain, twins⟩ => ⟨twins, plain⟩

theorem echoes_of_buildAll {parsers : List (Parser H)} (built : buildAll rules = .ok parsers)
    (echoes : List.Forall₂ (fun rule twin => rule.stage.Echoes twin) rules twins) :
    List.Forall₂ (fun parser twin => parser.stage.Echoes twin) parsers twins := by
  refine forall₂_of_common (buildAll_eq_ok built) echoes ?_
  intro rule parser twin built echoes branch branch' same left left' ran ran'
  exact echoes branch branch' same left left' ⟨parser, built, ran⟩ ran'

/-- What the children of a plain sequence echo one by one, it echoes one after the other. -/
theorem sequence_echoes (passes : ∀ twin ∈ twins, twin.Passes)
    (echoes : List.Forall₂ (fun rule twin => rule.stage.Echoes twin) rules twins) :
    (node .sequence {} rules).stage.Echoes (Stage.chain twins) := by
  rintro branch branch' same _ left' ⟨parser, built, items, gives, rfl⟩ ran'
  obtain ⟨parsers, below, made⟩ := build_eq_ok built
  obtain ⟨_, _, completed, rfl⟩ := Matcher.build_eq_ok made
  cases completed
  cases finished : branch.isFinished with
  | true =>
      -- the sequence itself passes the branch on, and so would each of its children
      have finished' : branch'.isFinished = true := same.twins.isFinished.symm.trans finished
      rw [Parser.gives_finished finished gives,
        Stage.chain_passes passes branch' left' finished' ran']
      exact .cons same .nil
  | false =>
      obtain ⟨inner, inside, rfl⟩ := Parser.gives_around finished rfl rfl gives
      obtain ⟨errors, survivors, ran, rfl⟩ := Sequence.gives_step inside
      have through := Stage.each_one.mp (Sequence.each_of_levels ran)
      have children := List.forall₂_map_left_iff.mpr (echoes_of_buildAll below echoes)
      have found := Stage.chain_echoes children _ branch' (same.withStack _) _ _ through ran'
      rw [Sequence.branchesOf_popped, Sequence.branchesOf_survivors]
      exact List.forall₂_map_left_iff.mpr (found.imp fun _ _ echoes => echoes.withStack _)

/-- What the children of a plain fork echo one by one, it echoes beside each other. -/
theorem fork_echoes (echoes : List.Forall₂ (fun rule twin => rule.stage.Echoes twin) rules twins) :
    (node .fork {} rules).stage.Echoes (Stage.choice twins) := by
  rintro branch branch' same _ left' ⟨parser, built, items, gives, rfl⟩ ⟨passed, inside'⟩
  obtain ⟨parsers, below, made⟩ := build_eq_ok built
  obtain ⟨_, _, completed, rfl⟩ := Matcher.build_eq_ok made
  cases completed
  cases finished : branch.isFinished with
  | true =>
      have finished' : branch'.isFinished = true := same.twins.isFinished.symm.trans finished
      rw [Parser.gives_finished finished gives, passed finished']
      exact .cons same .nil
  | false =>
      have unfinished' : branch'.isFinished = false := same.twins.isFinished.symm.trans finished
      obtain ⟨inner, inside, rfl⟩ := Parser.gives_around finished rfl rfl gives
      have children := List.forall₂_map_left_iff.mpr
        ((echoes_of_buildAll below echoes).imp fun _ _ echoes => echoes.onCopy)
      have found := Stage.beside_echoes children (same.withStack _) (Fork.beside_of_step inside)
        (inside' unfinished')
      rw [Sequence.branchesOf_popped]
      exact List.forall₂_map_left_iff.mpr (found.imp fun _ _ echoes => echoes.withStack _)

end Rule

end Typeahead
