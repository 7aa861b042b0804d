import Mathlib.Data.List.Induction
import Typeahead.Grammar
import Typeahead.Proofs.Branch.Reading
import Typeahead.Proofs.Run.Levels
import Typeahead.Proofs.Search.Repetition

namespace Typeahead

/-! What stands between the occurrences of a repetition.

The occurrences of fixed texts are followed through the search of a repetition, and
from there into the text behind it. -/

variable {H : Host}

namespace Branch

/-- Nothing but typed text and, behind all of the input, suggested text. -/
structure Lined (branch : Branch H) : Prop where
  unfinished : branch.isFinished = false
  kinds : ∀ part ∈ branch.parts, part.kind = .input ∨ part.kind = .suggestion
  suggested : branch.hasKind .suggestion = true → branch.input = []
  typed : branch.hasKind .suggestion = false → branch.parts ≠ [] → branch.given ≠ []

/-- What becomes of a branch by a fixed text of which the input begins the one or the
other. -/
inductive Takes (branch : Branch H) (text : Text) : Branch H → Prop
  | read {spelled rest : Text} (nonempty : spelled ≠ []) (split : branch.input = spelled ++ rest) :
      Takes branch text (branch.read none spelled text)
  | offered {typed pending : Text} (split : text = typed ++ pending)
      (untyped : branch.input = [] → typed = []) (left : pending ≠ [])  :
      Takes branch text (branch.offered none typed pending)

variable {branch next : Branch H} {text : Text}

theorem Lined.carried (lined : branch.Lined) (data : H.Data) (lineage : Nat)
    (stack : List String) : Lined { branch with data, lineage, stack } :=
  ⟨lined.unfinished, lined.kinds, lined.suggested, lined.typed⟩

theorem Lined.pushStack (lined : branch.Lined) (name : String) : (branch.pushStack name).Lined :=
  lined.carried branch.data branch.lineage _

theorem Lined.root {given : Text} {holder : Holder H}
    (rooted : (Branch.root given holder).Results branch) :
    branch.Lined ∧ branch.spelled = [] := by
  obtain ⟨data, rfl⟩ := root_results rooted
  exact ⟨⟨rfl, by simp, by simp [hasKind], by simp⟩, rfl⟩

theorem Lined.isTyped (lined : branch.Lined) (unsuggested : branch.hasKind .suggestion = false) :
    branch.isTyped = true := by
  rw [Branch.isTyped, List.all_eq_true]
  intro part member
  rcases lined.kinds part member with kind | kind
  · simp [kind]
  · rw [hasKind, List.any_eq_false] at unsuggested
    exact absurd (beq_iff_eq.mpr kind) (unsuggested part member)

theorem Lined.unwanted (lined : branch.Lined) (begun : branch.parts ≠ [])
    (unsuggested : branch.hasKind .suggestion = false) : branch.wantsPlaceholder = false := by
  have given := lined.typed unsuggested begun
  simp [wantsPlaceholder, lined.isTyped unsuggested, given]

theorem given_of_input (left : branch.input ≠ []) : branch.given ≠ [] := by
  intro empty
  simp [input, ahead_of_given empty] at left

theorem Takes.lined (lined : branch.Lined) (takes : branch.Takes text next) :
    next.Lined := by
  cases takes with
  | @read spelled rest nonempty split =>
      have left : branch.input ≠ [] := by simp [split, nonempty]
      constructor
      case unfinished =>
        rw [read_isFinished]
        exact lined.unfinished
      case kinds =>
        intro part member
        rcases List.mem_append.mp member with old | new
        · exact lined.kinds part old
        · exact .inl (congrArg Part.kind (List.mem_singleton.mp new))
      case suggested =>
        intro found
        rw [read_hasKind] at found
        exact absurd (lined.suggested found) left
      case typed =>
        have given := given_of_input left
        exact fun _ _ => given
  | @offered typed pending split untyped nonempty =>
      constructor
      case unfinished =>
        rw [offered_isFinished]
        exact lined.unfinished
      case kinds =>
        intro part member
        exact (List.mem_append.mp member).elim (lined.kinds part) Part.mem_begun
      case suggested => exact fun _ => rfl
      case typed =>
        intro unsuggested
        rw [offered_hasKind] at unsuggested
        contradiction

theorem Takes.spelled (takes : branch.Takes text next) :
    next.spelled = branch.spelled ++ text := by
  cases takes with
  | read =>
      rw [Branch.spelled, Branch.read, withPart_parts, Part.spelled_append,
        Part.spelled_singleton rfl]
      rfl
  | offered split =>
      rw [Branch.spelled, Branch.offered, Part.spelled_append, Part.spelled_begun, split]
      rfl

theorem Takes.parts_ne_nil (takes : branch.Takes text next) : next.parts ≠ [] := by
  cases takes with
  | read => exact List.append_ne_nil_of_right_ne_nil _ (List.cons_ne_nil _ _)
  | offered =>
      exact List.append_ne_nil_of_right_ne_nil _
        (List.append_ne_nil_of_right_ne_nil _ (List.cons_ne_nil _ _))

/-- Behind all of the input a text can only be offered as a whole. -/
theorem Takes.parts_of_used (used : branch.input = []) (takes : branch.Takes text next) :
    next.parts = branch.parts ++ [{ content := text, kind := .suggestion }] := by
  cases takes with
  | read nonempty split => simp [split, nonempty] at used
  | offered split untyped left =>
      rw [split, untyped used, List.nil_append]
      rfl

theorem takes_addOverlap {caseSensitive : Bool} {overlap : Text.Overlap} (lined : branch.Lined)
    (nonempty : text ≠ []) (found : Text.overlap? caseSensitive branch.input text = some overlap) :
    ∃ next, branch.addOverlap none overlap = .ok next ∧ branch.Takes text next := by
  cases overlap with
  | full matched rest =>
      obtain ⟨_, spelled, split, alike⟩ := Text.overlap?_eq_full_iff.mp found
      have spells : spelled ≠ [] := fun empty => nonempty (alike.eq_nil_iff.mp empty)
      have unsuggested : branch.hasKind .suggestion = false := by
        by_contra suggested
        have used := lined.suggested (by simpa using suggested)
        simp [split, spells] at used
      obtain ⟨spelled', split', alike', added⟩ := addOverlap_full unsuggested nonempty found none
      exact ⟨_, added, .read (fun empty => nonempty (alike'.eq_nil_iff.mp empty)) split'⟩
  | begun typed pending =>
      obtain ⟨split, left, alike⟩ := Text.overlap?_eq_begun_iff.mp found
      exact ⟨_, addOverlap_begun lined.suggested found none,
        .offered split (fun used => alike.eq_nil_iff.mpr used) left⟩

theorem Takes.uncarried {data : H.Data} {lineage : Nat} {stack : List String}
    (takes : Takes { branch with data, lineage, stack } text next) :
    ∃ taken, branch.Takes text taken ∧ next = { taken with data, lineage, stack } := by
  cases takes with
  | read nonempty split => exact ⟨_, .read nonempty split, rfl⟩
  | offered split untyped left => exact ⟨_, .offered split untyped left, rfl⟩

end Branch

/-- The item is the branch behind the text. -/
def Item.Took (branch : Branch H) (text : Text) (item : Item H) : Prop :=
  ∃ taken data lineage stack, branch.Takes text taken ∧
    item = .ok { taken with data, lineage, stack }

theorem Item.Took.uncarried {branch : Branch H} {text : Text} {item : Item H} {data : H.Data}
    {lineage : Nat} {stack : List String}
    (took : item.Took { branch with data, lineage, stack } text) : item.Took branch text := by
  obtain ⟨_, data', lineage', stack', takes, rfl⟩ := took
  obtain ⟨taken, takes', rfl⟩ := takes.uncarried
  exact ⟨taken, data', lineage', stack', takes', rfl⟩

theorem Item.Took.popStack {branch next : Branch H} {text : Text}
    (took : Item.Took branch text (.ok next)) : Item.Took branch text (.ok next.popStack) := by
  obtain ⟨taken, data, lineage, stack, takes, same⟩ := took
  cases same
  exact ⟨taken, data, lineage, stack.dropLast, takes, rfl⟩

/-- From a branch of one line the step leads behind one of the texts, or nowhere. -/
def Step.Spells (step : Step H) (texts : List Text) : Prop :=
  ∀ branch item, branch.Lined → (step branch).Yields item →
    ∃ text ∈ texts, item.Took branch text

theorem Parser.spells_around {name : String} {settings : Settings H} {matching : Step H}
    {texts : List Text} (placeholder : settings.placeholder = none)
    (requiresInput : settings.requiresInput = false) (spells : matching.Spells texts) :
    Step.Spells (Parser.around name true settings matching).start texts := by
  rintro branch item lined ⟨items, gives, member⟩
  obtain ⟨inner, inside, rfl⟩ :=
    gives_around lined.unfinished placeholder requiresInput gives
  obtain ⟨head, among, rfl⟩ := List.mem_map.mp member
  obtain ⟨text, known, took⟩ :=
    spells (branch.pushStack name) head (lined.pushStack name) ⟨inner, inside, among⟩
  obtain ⟨taken, data, lineage, stack, takes, rfl⟩ := took.uncarried
  exact ⟨text, known, taken, data, lineage, stack.dropLast, takes, rfl⟩

theorem Literal.spells_step {literal : Literal} {settings : Settings H}
    (nonempty : literal.text ≠ []) (unmarked : settings.marker = none) :
    (literal.step settings).Spells [literal.text] := by
  intro branch item lined yielded
  rw [step] at yielded
  split at yielded
  · exact absurd yielded Action.not_yields_empty
  · rename_i overlap found
    obtain ⟨next, added, takes⟩ := Branch.takes_addOverlap lined nonempty found
    rw [unmarked, added] at yielded
    cases Settings.yields_yieldExtended yielded with
    | ok _ data =>
        exact ⟨_, List.mem_singleton_self _, next, data, next.lineage, next.stack, takes, rfl⟩

theorem Fork.spells_step {settings : Settings H} {texts : List Text}
    (spells : ∀ child ∈ settings.children, Step.Spells child.start texts) :
    (Fork.step settings).Spells texts := by
  intro branch item lined yielded
  obtain ⟨child, member, started⟩ := Run.yields_concatMap (Action.yields_pure yielded)
  obtain ⟨copy, copied, continued⟩ := Action.yields_bind started
  obtain ⟨data, rfl⟩ := Branch.fork_results copied
  obtain ⟨text, known, took⟩ := spells child member _ item (lined.carried _ _ _) continued
  exact ⟨text, known, took.uncarried⟩

namespace Repetition

/-- So many of the texts, each but the first behind the glue. -/
def Row (texts : List Text) (glue : Text) (count : Nat) (line : Text) : Prop :=
  ∃ (first : Text) (others : List Text), first ∈ texts ∧ (∀ other ∈ others, other ∈ texts) ∧
    others.length + 1 = count ∧ line = first ++ others.flatMap (glue ++ ·)

variable {texts : List Text} {glue text line : Text} {count : Nat}

theorem Row.one (known : text ∈ texts) : Row texts glue 1 text :=
  ⟨text, [], known, by simp, rfl, by simp⟩

theorem Row.more (row : Row texts glue count line) (known : text ∈ texts) :
    Row texts glue (count + 1) (line ++ glue ++ text) := by
  obtain ⟨first, others, among, all, rfl, rfl⟩ := row
  refine ⟨first, others ++ [text], among, ?_, by simp, by simp⟩
  intro other member
  rcases List.mem_append.mp member with old | new
  · exact all other old
  · rw [List.mem_singleton.mp new]
    exact known

/-- Where a repetition of texts stands after so many steps: behind a row of them, or
behind the glue that was offered behind such a row. -/
inductive Stands (texts : List Text) (glue : Text) (limit : Nat) : Nat → Branch H → Prop
  | row {count : Nat} {branch : Branch H} (lined : branch.Lined) (begun : branch.parts ≠ [])
      (row : Row texts glue count branch.spelled) : Stands texts glue limit count branch
  | trailing {count : Nat} {branch : Branch H} {front : List Part} {typed pending line : Text}
      (lined : branch.Lined) (within : count < limit) (row : Row texts glue count line)
      (split : glue = typed ++ pending) (left : pending ≠ [])
      (parts : branch.parts = front ++ [{ content := pending, kind := .suggestion }])
      (spelled : Part.spelled front = line ++ typed) :
      Stands texts glue limit (count + 1) branch

variable {repetition : Repetition} {child : Parser H} {branch next rest : Branch H}
  {findings : Findings (Item H)} {heads : Nat → List (Item H)} {limit : Nat}

theorem Stands.carried (stands : Stands texts glue limit count branch) (data : H.Data)
    (lineage : Nat) (stack : List String) :
    Stands texts glue limit count { branch with data, lineage, stack } := by
  cases stands with
  | row lined begun row => exact .row (lined.carried _ _ _) begun row
  | trailing lined within row split left parts spelled =>
      exact .trailing (lined.carried _ _ _) within row split left parts spelled

theorem stands_of_took {item : Item H} (lined : branch.Lined) (took : item.Took branch text)
    (row : Row texts glue count (branch.spelled ++ text)) (found : item = .ok next) :
    Stands texts glue limit count next := by
  obtain ⟨taken, data, lineage, stack, takes, rfl⟩ := took
  cases found
  refine Stands.carried (.row (takes.lined lined) takes.parts_ne_nil ?_) _ _ _
  rwa [takes.spelled]

theorem Stands.lined (stands : Stands texts glue limit count branch) : branch.Lined := by
  cases stands with
  | row lined => exact lined
  | trailing lined => exact lined

/-- Behind an offered glue nothing is allowed to follow. -/
theorem Stands.row_of_unsuggested (stands : Stands texts glue limit count branch)
    (unsuggested : branch.hasKind .suggestion = false) :
    branch.parts ≠ [] ∧ Row texts glue count branch.spelled := by
  cases stands with
  | row _ begun row => exact ⟨begun, row⟩
  | trailing _ _ _ _ _ parts => simp [Branch.hasKind, parts] at unsuggested

/-- One more step leads behind one more occurrence, or behind the glue. -/
theorem stands_of_goes (spells : Step.Spells child.start texts)
    (single : repetition.glue = [glue]) (filled : glue ≠ [])
    (stands : Stands texts glue repetition.limit (count + 1) rest)
    (goes : repetition.Goes child (count + 1) rest heads) {alternative : Nat}
    (found : .ok next ∈ heads alternative) :
    Stands texts glue repetition.limit (count + 2) next := by
  cases goes with
  | closed => simp at found
  | heldOpen allowed wanted =>
      obtain ⟨begun, _⟩ := stands.row_of_unsuggested allowed.unsuggested
      rw [stands.lined.unwanted begun allowed.unsuggested] at wanted
      contradiction
  | glued allowed unwanted glues only =>
      have lined := stands.lined
      obtain ⟨_, row⟩ := stands.row_of_unsuggested allowed.unsuggested
      cases alternative with
      | succ alternative =>
          rw [only (alternative + 1) (by simp [single])] at found
          simp at found
      | zero =>
          obtain ⟨copy, copied, joined⟩ := glues 0 glue (by rw [single]; rfl)
          obtain ⟨data, rfl⟩ := Branch.fork_results copied
          generalize heads 0 = given at joined found
          cases joined with
          | @typed spelled _ _ split alike continued =>
              have takes : Branch.Takes _ glue (Branch.read _ none spelled glue) :=
                .read (fun empty => filled (alike.eq_nil_iff.mp empty)) split
              have lined' := takes.lined (lined.carried _ _ _)
              obtain ⟨text, known, took⟩ := spells _ (.ok next) lined' ⟨_, continued, found⟩
              refine stands_of_took lined' took ?_ rfl
              rw [takes.spelled]
              exact row.more known
          | @pending typed pending split left alike =>
              have takes : Branch.Takes _ glue (Branch.offered _ none typed pending) :=
                .offered split (fun used => alike.eq_nil_iff.mpr used) left
              obtain ⟨front, parts, spelled⟩ := Part.begun_eq none typed pending
              cases List.mem_singleton.mp found
              refine .trailing (takes.lined (lined.carried _ _ _)) allowed.within row split left
                ((congrArg (rest.parts ++ ·) parts).trans (List.append_assoc _ _ _).symm) ?_
              rw [Part.spelled_append, spelled]
              rfl
          | unlike => simp at found

theorem stands_of_follows (spells : Step.Spells child.start texts)
    (single : repetition.glue = [glue]) (filled : glue ≠ []) (lined : branch.Lined)
    (unread : branch.spelled = [])
    (follows : findings.Follows (fun front => repetition.Goes child front.length) branch)
    (address : Address) (found : findings.at? address = some (.ok next)) :
    Stands texts glue repetition.limit address.length next := by
  induction address using List.reverseRecOn generalizing next with
  | nil => simp at found
  | append_singleton front step ih =>
      rw [Findings.at?_concat] at found
      have member := List.mem_of_getElem? found
      rw [List.length_append, List.length_singleton]
      rcases follows.reached (List.ne_nil_of_mem member) with
        rfl | ⟨before, rest, there, copied, goes⟩
      · cases follows.here with
        | first started only =>
            obtain ⟨alternative, place⟩ := step
            cases alternative with
            | succ alternative => simp [only alternative] at member
            | zero =>
                obtain ⟨text, known, took⟩ := spells branch (.ok next) lined ⟨_, started, member⟩
                refine stands_of_took lined took ?_ rfl
                rw [unread]
                exact .one known
      · obtain ⟨data, rfl⟩ := Branch.fork_results copied
        have stands := (ih there).carried data (before.lineage + 1) before.stack
        cases front with
        | nil => simp at there
        | cons first front => exact stands_of_goes spells single filled stands goes member

end Repetition

namespace Rule

def text (content : Text) : Rule H := .node (.literal { text := content }) {} []

/-- Some texts any number of times with a glue between them, and a text at the end. -/
def joined (texts : List Text) (glue : Text) (limit : Nat) (closing : Text) : Rule H :=
  .node .sequence {} [
    .node (.repetition { glue := [glue], limit }) {} [.node .fork {} (texts.map text)],
    text closing]

variable {content : Text} {contents : List Text} {parser : Parser H}

theorem spells_text (built : (text content).build = .ok parser) :
    Step.Spells parser.start [content] := by
  obtain ⟨parsers, _, made⟩ := build_eq_ok built
  obtain ⟨prepared, checked, completed, rfl⟩ := Matcher.build_eq_ok made
  cases completed
  exact Parser.spells_around rfl rfl (Literal.spells_step (Literal.check_eq_ok checked) rfl)

theorem spells_fork (built : (Rule.node .fork {} (contents.map text)).build = .ok parser) :
    Step.Spells parser.start contents := by
  obtain ⟨parsers, below, made⟩ := build_eq_ok built
  obtain ⟨prepared, _, completed, rfl⟩ := Matcher.build_eq_ok made
  cases completed
  refine Parser.spells_around rfl rfl (Fork.spells_step fun child member => ?_)
  obtain ⟨rule, among, builtChild⟩ := exists_of_mem_forall₂ (buildAll_eq_ok below) member
  obtain ⟨content, known, rfl⟩ := List.mem_map.mp among
  intro branch item lined yielded
  obtain ⟨text, only, took⟩ := spells_text builtChild branch item lined yielded
  exact ⟨text, List.mem_singleton.mp only ▸ known, took⟩

theorem stands_of_repetition {shape : Repetition} {glue : Text} {branch next : Branch H}
    (single : shape.glue = [glue])
    (built : (Rule.node (.repetition shape) {} [.node .fork {} (contents.map text)]).build =
      .ok parser)
    (lined : branch.Lined) (unread : branch.spelled = [])
    (yielded : (parser.start branch).Yields (.ok next)) :
    ∃ steps ≤ max shape.limit 1, Repetition.Stands contents glue shape.limit steps next := by
  obtain ⟨parsers, below, made⟩ := build_eq_ok built
  obtain ⟨prepared, checked, completed, rfl⟩ := Matcher.build_eq_ok made
  cases completed
  have filled : glue ≠ [] := Repetition.check_eq_ok checked glue (by simp [single])
  obtain ⟨items, gives, member⟩ := yielded
  obtain ⟨inner, inside, rfl⟩ := Parser.gives_around lined.unfinished rfl rfl gives
  obtain ⟨found, among, left⟩ := List.mem_map.mp member
  cases found with
  | error cause => contradiction
  | ok found =>
      cases left
      obtain ⟨child, only, findings, follows, lists⟩ := Repetition.step_search checked inside
      obtain ⟨address, there⟩ := lists.at?_of_mem among
      cases only
      cases buildAll_eq_ok below with
      | cons builtChild _ =>
          have stands := Repetition.stands_of_follows (spells_fork builtChild) single filled
            (lined.pushStack _) unread follows address there
          have within := Repetition.length_le_of_follows follows address (by rw [there]; rfl)
          exact ⟨address.length, within, stands.carried _ _ _⟩

theorem stands_of_joined {glue closing : Text} {limit : Nat} {branch final : Branch H}
    (built : (joined contents glue limit closing).build = .ok parser)
    (lined : branch.Lined) (unread : branch.spelled = [])
    (yielded : (parser.start branch).Yields (.ok final)) :
    ∃ middle, (∃ steps ≤ max limit 1, Repetition.Stands contents glue limit steps middle) ∧
      Item.Took middle closing (.ok final) := by
  obtain ⟨parsers, below, made⟩ := build_eq_ok built
  obtain ⟨prepared, _, completed, rfl⟩ := Matcher.build_eq_ok made
  cases completed
  obtain ⟨items, gives, member⟩ := yielded
  obtain ⟨inner, inside, rfl⟩ := Parser.gives_around lined.unfinished rfl rfl gives
  obtain ⟨last, among, left⟩ := List.mem_map.mp member
  cases last with
  | error cause => contradiction
  | ok last =>
      cases left
      have through := Sequence.through_of_step ⟨inner, inside, among⟩
      cases buildAll_eq_ok below with
      | cons builtFirst behind =>
          cases behind with
          | cons builtLast behind =>
              cases behind
              cases through with
              | @child _ _ _ middle _ found rest =>
                  cases rest with
                  | child found' done =>
                      cases done
                      obtain ⟨steps, within, stands⟩ :=
                        stands_of_repetition rfl builtFirst (lined.pushStack _) unread found
                      obtain ⟨_, only, took⟩ := spells_text builtLast _ _ stands.lined found'
                      cases List.mem_singleton.mp only
                      exact ⟨middle, ⟨steps, within, stands⟩, took.popStack⟩

end Rule

namespace Grammar

variable {texts : List Text} {glue closing : Text} {limit : Nat} {parser : Parser H}
  {holder : Holder H} {input : Text} {options : ParseOptions}
  {cursor : Cursor H (Except Error (ParseResult H))} {result : ParseResult H}

/-- A result spells a row of the texts and the text at the end.  Only a glue that was
offered may be followed by that text, which is then offered as well. -/
theorem parse_joined (built : (Rule.joined texts glue limit closing).build = .ok parser)
    (begun : (Grammar.parse { parser, holder } input options).Results cursor)
    (yielded : cursor.Yields (.ok result)) :
    ∃ count line, count ≤ max limit 1 ∧ Repetition.Row texts glue count line ∧
      (result.spelled = line ++ closing ∨
        ∃ front typed pending, count < limit ∧ glue = typed ++ pending ∧ pending ≠ [] ∧
          result.parts = front ++ [{ content := pending, kind := .suggestion },
            { content := closing, kind := .suggestion }] ∧
          Part.spelled front = line ++ typed) := by
  obtain ⟨root, item, rooted, found, kept⟩ := yields_parse begun yielded
  obtain ⟨lined, unread⟩ := Branch.Lined.root rooted
  obtain ⟨final, rfl, rfl, _⟩ := result?_eq_ok kept
  obtain ⟨middle, ⟨steps, within, stands⟩, took⟩ :=
    Rule.stands_of_joined built lined unread found
  obtain ⟨taken, data, lineage, stack, takes, answered⟩ := took
  cases answered
  cases stands with
  | row _ _ row => exact ⟨steps, _, within, row, .inl takes.spelled⟩
  | @trailing count _ front typed pending line lined inside row split left parts spelled =>
      have used : middle.input = [] := lined.suggested (by simp [Branch.hasKind, parts])
      have ending := takes.parts_of_used used
      rw [parts, List.append_assoc] at ending
      exact ⟨count, line, Nat.le_of_succ_le within, row,
        .inr ⟨front, typed, pending, inside, split, left, ending, spelled⟩⟩

/-- Letters with commas between them, and an x behind. -/
def spelledOut : Rule Host.quiet := Rule.joined [['a'], ['b']] [','] 2 ['x']

theorem parse_joined_letters : ∃ parser cursor result,
    spelledOut.build = .ok parser ∧
    (Grammar.parse { parser, holder := .plain () } ['a', ',', 'b'] {}).Results cursor ∧
    cursor.Yields (.ok result) ∧ result.spelled = ['a', ',', 'b', 'x'] ∧
    ∃ count line, count ≤ max 2 1 ∧ Repetition.Row [['a'], ['b']] [','] count line ∧
      (result.spelled = line ++ ['x'] ∨
        ∃ front typed pending, count < 2 ∧ [','] = typed ++ pending ∧ pending ≠ [] ∧
          result.parts = front ++ [{ content := pending, kind := .suggestion },
            { content := ['x'], kind := .suggestion }] ∧
          Part.spelled front = line ++ typed) := by
  obtain ⟨parser, built⟩ : ∃ parser, spelledOut.build = .ok parser := ⟨_, rfl⟩
  have answers : spelledOut.build.toOption.all (fun parser =>
      (((Grammar.parse { parser, holder := .plain () } ['a', ',', 'b'] {}) ()).result.next
        ()).result.1.any fun answer =>
          answer.toOption.any (·.spelled = ['a', ',', 'b', 'x'])) = true := by decide +kernel
  rw [built] at answers
  obtain ⟨answer, answered, spelled⟩ := (Option.any_eq_true _ _).mp answers
  cases answer with
  | error cause => contradiction
  | ok result =>
      have yielded := Cursor.yields_next answered
      exact ⟨parser, _, result, built, ⟨(), rfl⟩, yielded, of_decide_eq_true spelled,
        parse_joined built ⟨(), rfl⟩ yielded⟩

/-- Behind a letter the comma is offered, and the x behind it. -/
theorem glue_ends_repetition : ∃ parser cursor result,
    spelledOut.build = .ok parser ∧
    (Grammar.parse { parser, holder := .plain () } ['a'] {}).Results cursor ∧
    cursor.Yields (.ok result) ∧ result.spelled = ['a', ',', 'x'] ∧
    ¬ ∃ count line, count ≤ max 2 1 ∧ Repetition.Row [['a'], ['b']] [','] count line ∧
      result.spelled = line ++ ['x'] := by
  obtain ⟨parser, built⟩ : ∃ parser, spelledOut.build = .ok parser := ⟨_, rfl⟩
  have answers : spelledOut.build.toOption.all (fun parser =>
      let cursor := ((Grammar.parse { parser, holder := .plain () } ['a'] {}) ()).result
      let first := (cursor.next ()).result
      first.1.isSome && (first.2.next ()).result.1.any fun answer =>
        answer.toOption.any (·.spelled = ['a', ',', 'x'])) = true := by decide +kernel
  rw [built] at answers
  obtain ⟨some_first, later⟩ := Bool.and_eq_true_iff.mp answers
  obtain ⟨first, answered⟩ := Option.isSome_iff_exists.mp some_first
  obtain ⟨answer, answered', found⟩ := (Option.any_eq_true _ _).mp later
  cases answer with
  | error cause => contradiction
  | ok result =>
      have spelled : result.spelled = ['a', ',', 'x'] := of_decide_eq_true found
      refine ⟨parser, _, result, built, ⟨(), rfl⟩,
        Cursor.yields_further answered (Cursor.yields_next answered'), spelled, ?_⟩
      rintro ⟨count, line, within, ⟨one, others, known, all, rfl, rfl⟩, same⟩
      rw [spelled] at same
      have letter : ∀ text ∈ [['a'], ['b']], text.length = 1 := by simp
      have lengths := congrArg List.length same
      -- every further letter comes with a comma
      match others, within, all with
      | [], _, _ => simp [letter one known] at lengths
      | [other], _, all => simp [letter one known, letter other (all other (by simp))] at lengths

end Grammar

end Typeahead
