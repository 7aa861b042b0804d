import Typeahead.Proofs.Tame.Nested

namespace Typeahead

/-! Properties of branches that parsers keep.

Parsers that compose others keep what their children keep, if copies of a branch keep
it too.  Parsers that add text keep what only the markers of the text could break. -/

variable {H : Host} {P : Branch H → Prop}

/-- The property of the branch that an item is, if it is one. -/
def Item.Holds (P : Branch H → Prop) (item : Item H) : Prop := ∀ next, item = .ok next → P next

def Step.Keeps (P : Branch H → Prop) (step : Step H) : Prop :=
  ∀ branch item, P branch → (step branch).Yields item → item.Holds P

def Parser.Keeps (P : Branch H → Prop) (parser : Parser H) : Prop := Step.Keeps P parser.start

def Settings.ChildrenKeep (P : Branch H → Prop) (settings : Settings H) : Prop :=
  ∀ child ∈ settings.children, child.Keeps P

namespace Branch

/-- Copies have the property with the branch they are made of. -/
def Copied (P : Branch H → Prop) : Prop :=
  ∀ branch copy, P branch → branch.fork.Results copy → P copy

/-- Kept by what surrounds a parser, apart from its placeholder. -/
structure Carried (P : Branch H → Prop) : Prop where
  copied : Copied P
  stacked : ∀ branch stack, P branch → P { branch with stack }
  finished : ∀ branch, P branch → P branch.finish

/-- Kept by all that is added with the marker. -/
structure Absorbs (P : Branch H → Prop) (marker : Option Marker) : Prop where
  copied : Copied P
  part : ∀ branch content kind, P branch → Item.Holds P (branch.add { content, kind, marker })
  factor : ∀ branch factor, P branch → Item.Holds P (branch.addScore factor)
  data : ∀ branch data, P branch → P { branch with data }

end Branch

namespace Item

variable {Q : Branch H → Prop} {first extended item : Item H}

theorem holds_ok {next : Branch H} (holds : P next) : Holds P (.ok next) := by
  rintro _ ⟨⟩
  exact holds

theorem holds_error (cause : Error) : Holds P (.error cause) := by
  rintro _ ⟨⟩

theorem holds_bind {rest : Branch H → Item H} (begins : Holds P first)
    (goes : ∀ middle, P middle → Holds Q (rest middle)) : Holds Q (first >>= rest) := by
  intro next answered
  obtain ⟨middle, reached, further⟩ := Except.bind_eq_ok answered
  exact goes middle (begins middle reached) next further

theorem holds_thenExtend {run : Run H (Item H)} {extend : Branch H → Action H (Run H (Item H))}
    (yielded : (run.thenExtend extend).Yields item) (copied : Branch.Copied P)
    (heads : ∀ head, run.Yields head → Holds P head)
    (further : ∀ copy, P copy → (extend copy).Yields item → Holds P item) : Holds P item := by
  rcases Run.yields_thenExtend yielded with head | ⟨next, copy, head, made, extended⟩
  · exact heads item head
  · exact further copy (copied next copy (heads _ head next rfl) made) extended

end Item

namespace Branch.Absorbs

variable {marker : Option Marker} {branch : Branch H}

theorem addOverlap (absorbs : Absorbs P marker) (holds : P branch) (overlap : Text.Overlap) :
    Item.Holds P (branch.addOverlap marker overlap) := by
  cases overlap with
  | full matched rest => exact absorbs.part branch matched .input holds
  | begun typed suggestion =>
      rw [Branch.addOverlap]
      split
      · exact absorbs.part branch suggestion .suggestion holds
      · exact Item.holds_bind (absorbs.part branch typed .input holds) fun begun =>
          absorbs.part begun suggestion .suggestion

theorem addSegment (absorbs : Absorbs P marker) (holds : P branch) (segment : Text.Segment) :
    Item.Holds P (Branch.addSegment marker branch segment) := by
  rw [Branch.addSegment]
  split
  · exact Item.holds_bind (absorbs.factor branch _ holds) fun scored => absorbs.part scored _ _
  · exact absorbs.part branch _ _ holds

theorem addSegments (absorbs : Absorbs P marker) (holds : P branch)
    (segments : List Text.Segment) :
    Item.Holds P (segments.foldlM (Branch.addSegment marker) branch) := by
  induction segments generalizing branch with
  | nil => exact Item.holds_ok holds
  | cons segment segments ih =>
      rw [List.foldlM_cons]
      exact Item.holds_bind (absorbs.addSegment holds segment) fun _ => ih

theorem carries {extended item : Item H} (absorbs : Absorbs P marker) (holds : extended.Holds P)
    (carries : extended.Carries item) : item.Holds P := by
  cases carries with
  | ok next data => exact Item.holds_ok (absorbs.data next data (holds next rfl))
  | error cause => exact Item.holds_error cause

theorem yieldExtended {settings : Settings H} {extended item : Item H}
    {emission : Option (Emission H)} (absorbs : Absorbs P marker) (holds : extended.Holds P)
    (yielded : (settings.yieldExtended extended emission).Yields item) : item.Holds P :=
  absorbs.carries holds (Settings.yields_yieldExtended yielded)

theorem addPlaceholder {settings : Settings H} (absorbs : Absorbs P settings.marker)
    (carried : Carried P) (holds : P branch) (text : Text) :
    Item.Holds P (settings.addPlaceholder text branch) :=
  Item.holds_bind (absorbs.part branch text .placeholder holds) fun shown held =>
    Item.holds_ok (carried.finished shown held)

end Branch.Absorbs

/-! ### What surrounds a parser -/

namespace Parser

variable {name : String} {enabled : Bool} {settings : Settings H} {matching : Step H}

theorem keeps_around (carried : Branch.Carried P)
    (shows : ∀ branch text, settings.placeholder = some text → P branch → branch.input = [] →
      Item.Holds P (settings.addPlaceholder text branch))
    (keeps : matching.Keeps P) : (Parser.around name enabled settings matching).Keeps P := by
  intro branch item holds yielded
  cases yields_around yielded with
  | passed => exact Item.holds_ok holds
  | shown unfinished used placeholder => exact shows branch _ placeholder holds used
  | finished used => exact Item.holds_ok (carried.finished branch holds)
  | @matched head unfinished found =>
      have kept := keeps _ head (carried.stacked branch _ holds) found
      cases head with
      | error cause => exact Item.holds_error cause
      | ok inner => exact Item.holds_ok (carried.stacked inner _ (kept inner rfl))
  | @fellBack text copy unfinished used copied placeholder =>
      have holds' := carried.copied branch copy holds copied
      obtain ⟨data, rfl⟩ := Branch.fork_results copied
      exact shows _ text placeholder holds' used

end Parser

/-! ### Parsers without children -/

theorem Literal.keeps_matcher (literal : Literal) {settings : Settings H}
    (absorbs : Branch.Absorbs P settings.marker) : (literal.matcher.step settings).Keeps P := by
  intro branch item holds yielded
  dsimp only [matcher] at yielded
  split at yielded
  · rw [fuzzyStep] at yielded
    split at yielded
    · exact absurd yielded Action.not_yields_empty
    · exact absorbs.yieldExtended (absorbs.addSegments holds _) yielded
  · rw [step] at yielded
    split at yielded
    · exact absurd yielded Action.not_yields_empty
    · exact absorbs.yieldExtended (absorbs.addOverlap holds _) yielded

theorem Number.keeps_matcher (number : Number) {settings : Settings H}
    (absorbs : Branch.Absorbs P settings.marker) : (number.matcher.step settings).Keeps P := by
  intro branch item holds yielded
  dsimp only [matcher] at yielded
  split at yielded
  · rw [offerStep] at yielded
    split at yielded
    · obtain ⟨fit, _, _, offered⟩ := yields_offersFrom (Action.yields_pure yielded)
      rw [offer] at offered
      split at offered
      · exact absurd offered Action.not_yields_empty
      · obtain ⟨copy, copied, extended⟩ := Action.yields_bind offered
        exact absorbs.yieldExtended
          (absorbs.addOverlap (absorbs.copied branch copy holds copied) _) extended
    · exact absurd yielded Action.not_yields_empty
  · rw [readStep] at yielded
    split at yielded
    · exact absurd yielded Action.not_yields_empty
    · split at yielded
      · exact absorbs.yieldExtended (absorbs.part branch _ _ holds) yielded
      · exact absurd yielded Action.not_yields_empty

theorem Whitespace.keeps_step {settings : Settings H}
    (absorbs : Branch.Absorbs P settings.marker) : (Whitespace.step settings).Keeps P := by
  intro branch item holds yielded
  rw [step] at yielded
  split at yielded
  · exact absurd yielded Action.not_yields_empty
  · exact absorbs.yieldExtended (absorbs.part branch _ _ holds) yielded

theorem Freetext.keeps_step (freetext : Freetext H) {settings : Settings H}
    (absorbs : Branch.Absorbs P settings.marker) : (freetext.step settings).Keeps P := by
  intro branch item holds yielded
  obtain ⟨length, _, captures⟩ := Run.yields_concatMap (Action.yields_pure yielded)
  obtain ⟨copy, copied, carries⟩ := yields_capture captures
  have kept : Item.Holds P (captured settings.marker copy (branch.input.take length)) :=
    Item.holds_bind (absorbs.part copy _ .input (absorbs.copied branch copy holds copied))
      fun added => absorbs.factor added _
  exact absorbs.carries kept carries

/-! ### Parsers around others -/

theorem Fork.keeps_step {settings : Settings H} (copied : Branch.Copied P)
    (children : settings.ChildrenKeep P) : (Fork.step settings).Keeps P := by
  intro branch item holds yielded
  obtain ⟨child, member, started⟩ := Run.yields_concatMap (Action.yields_pure yielded)
  obtain ⟨copy, made, continued⟩ := Action.yields_bind started
  exact children child member copy item (copied branch copy holds made) continued

theorem Optional.keeps_step {settings : Settings H} (copied : Branch.Copied P)
    (children : settings.ChildrenKeep P) : (Optional.step settings).Keeps P := by
  intro branch item holds yielded
  obtain ⟨skipped, made, rest⟩ := Action.yields_bind yielded
  rcases Run.yields_cons (Action.yields_pure rest) with rfl | later
  · exact Item.holds_ok (copied branch skipped holds made)
  · have continued := Run.yields_defer later
    split at continued
    · exact absurd continued Action.not_yields_empty
    · rename_i child others same
      exact children child (by simp [same]) branch item holds continued

namespace Pick

theorem keeps_chains {depth : Nat} {unused : List (Parser H)} (copied : Branch.Copied P)
    (keep : ∀ child ∈ unused, child.Keeps P) {branch : Branch H} {item : Item H}
    (holds : P branch) (yielded : (chains depth unused branch).Yields item) : item.Holds P := by
  induction depth generalizing unused branch with
  | zero => exact absurd yielded Run.not_yields_empty
  | succ depth ih =>
      obtain ⟨⟨child, others⟩, member, started⟩ := Run.yields_concatMap yielded
      obtain ⟨inUnused, inside⟩ := mem_selections member
      obtain ⟨copy, made, continued⟩ := Action.yields_bind started
      obtain ⟨run, begun, chained⟩ := Action.yields_bind continued
      refine Item.holds_thenExtend (Action.yields_pure chained) copied ?_ ?_
      · intro head first
        exact keep child inUnused copy head (copied branch copy holds made)
          (Action.yields_of_results begun first)
      · intro rest holds' extended
        exact ih (fun other found => keep other (inside other found)) holds'
          (Action.yields_pure extended)

theorem keeps_step {settings : Settings H} (pick : Pick) (copied : Branch.Copied P)
    (children : settings.ChildrenKeep P) : (pick.step settings).Keeps P := by
  intro branch item holds yielded
  exact keeps_chains copied children holds (yields_step yielded)

end Pick

namespace Sequence

theorem keeps_levels {children : List (Parser H)} {live survivors : List (Branch H)}
    {errors : List Error} (keep : ∀ child ∈ children, child.Keeps P)
    (hold : ∀ branch ∈ live, P branch)
    (ran : (levels children live).Results (errors, survivors)) :
    ∀ branch ∈ survivors, P branch := by
  induction children generalizing live errors survivors with
  | nil =>
      cases Action.results_pure ran
      exact hold
  | cons child others ih =>
      obtain ⟨items, later, ofLevel, ofOthers, rfl⟩ := levels_cons ran
      refine ih (fun other member => keep other (List.mem_cons_of_mem child member)) ?_ ofOthers
      intro branch member
      obtain ⟨before, among, yielded⟩ := yields_of_level ofLevel (mem_branchesOf.mp member)
      exact keep child List.mem_cons_self before _ (hold before among) yielded branch rfl

theorem keeps_step {settings : Settings H} (children : settings.ChildrenKeep P) :
    (Sequence.step settings).Keeps P := by
  intro branch item holds yielded
  obtain ⟨errors, survivors, ran, found⟩ := yields_step yielded
  have alone : ∀ other ∈ [branch], P other := by
    intro other member
    rw [List.mem_singleton.mp member]
    exact holds
  rcases found with ⟨cause, _, rfl⟩ | ⟨next, member, rfl⟩
  · exact Item.holds_error cause
  · exact Item.holds_ok (keeps_levels children alone ran next member)

end Sequence

namespace Word

variable {branch : Branch H} {item : Item H}

theorem holds_opened? {marker : Option Marker} (absorbs : Branch.Absorbs P marker)
    (holds : P branch) (opened : opened? marker branch = some item) : item.Holds P := by
  rw [opened?] at opened
  split at opened
  · cases opened
    exact Item.holds_ok holds
  · split at opened
    · cases opened
      exact absorbs.part branch _ _ holds
    · split at opened
      · contradiction
      · cases opened
        exact absorbs.part branch _ _ holds

theorem holds_closed? {marker : Option Marker} (absorbs : Branch.Absorbs P marker)
    (holds : P branch) (closes : closed? marker branch = some item) : item.Holds P := by
  rw [closed?] at closes
  split at closes
  · cases closes
    exact absorbs.part branch _ _ holds
  · split at closes
    · cases closes
      exact Item.holds_ok holds
    · split at closes
      · contradiction
      · cases closes
        exact absorbs.part branch _ _ holds

theorem keeps_step {settings : Settings H} (absorbs : Branch.Absorbs P settings.marker)
    (children : settings.ChildrenKeep P) : (Word.step settings).Keeps P := by
  rintro branch _ holds yielded next rfl
  obtain ⟨child, among, entered, inner, opened, found, closes⟩ := yields_step yielded
  have held := holds_opened? absorbs holds opened entered rfl
  have kept := children child among entered _ held found inner rfl
  exact holds_closed? absorbs kept closes next rfl

end Word

namespace Repetition

variable {repetition : Repetition} {child : Parser H} {branch : Branch H} {item : Item H}

/-- Kept by what a repetition adds itself. -/
structure Absorbed (repetition : Repetition) (P : Branch H → Prop) : Prop where
  glued : ∀ branch glue overlap, glue ∈ repetition.glue → P branch →
    Text.overlap? false branch.input glue = some overlap →
      Item.Holds P (branch.addOverlap none overlap)
  held : ∀ branch text, repetition.placeholder? = some text → P branch →
    Item.Holds P (do return (← branch.add { content := text, kind := .placeholder }).finish)

theorem holds_glued {extend : Branch H → Action H (Run H (Item H))} {glue : Text}
    (copied : Branch.Copied P) (absorbed : repetition.Absorbed P) (keeps : child.Keeps P)
    (among : glue ∈ repetition.glue) (holds : P branch)
    (further : ∀ copy, P copy → (extend copy).Yields item → item.Holds P)
    (yielded : (glued child extend branch glue).Yields item) : item.Holds P := by
  rw [glued] at yielded
  split at yielded
  · exact absurd yielded Action.not_yields_empty
  · rename_i overlap found
    obtain ⟨copy, made, joining⟩ := Action.yields_bind yielded
    have holds' := copied branch copy holds made
    obtain ⟨data, rfl⟩ := Branch.fork_results made
    have joins := absorbed.glued _ glue overlap among holds' found
    split at joining
    · rename_i cause _
      rw [Run.yields_one (Action.yields_pure joining)]
      exact Item.holds_error cause
    · rename_i joined added
      split at joining
      · rw [Run.yields_one (Action.yields_pure joining)]
        exact Item.holds_ok (joins joined added)
      · obtain ⟨run, begun, extended⟩ := Action.yields_bind joining
        refine Item.holds_thenExtend (Action.yields_pure extended) copied ?_ further
        intro head first
        exact keeps joined head (joins joined added) (Action.yields_of_results begun first)

theorem keeps_extensions {remaining : Nat} (copied : Branch.Copied P)
    (absorbed : repetition.Absorbed P) (keeps : child.Keeps P) :
    (repetition.extensions child remaining).Keeps P := by
  -- each further occurrence takes one from the number that is still allowed
  induction remaining with
  | zero => exact fun branch item _ yielded => absurd yielded Action.not_yields_empty
  | succ allowed ih =>
      intro branch item holds yielded
      cases allowed with
      | zero => exact absurd yielded Action.not_yields_empty
      | succ remaining =>
          rw [extensions] at yielded
          split at yielded
          · exact absurd yielded Action.not_yields_empty
          · split at yielded
            · rename_i text shown
              rw [Run.yields_one (Action.yields_pure yielded)]
              exact absorbed.held branch text (Option.filter_eq_some_iff.mp shown).1 holds
            · obtain ⟨glue, among, joined⟩ := Run.yields_concatMap (Action.yields_pure yielded)
              exact holds_glued copied absorbed keeps among holds
                (fun copy => ih copy item) joined

theorem keeps_step {settings : Settings H} (copied : Branch.Copied P)
    (absorbed : repetition.Absorbed P) (children : settings.ChildrenKeep P) :
    (repetition.step settings).Keeps P := by
  intro branch item holds yielded
  rw [step] at yielded
  split at yielded
  · exact absurd yielded Action.not_yields_empty
  · rename_i child others among
    have keeps := children child (by simp [among])
    obtain ⟨run, begun, extended⟩ := Action.yields_bind yielded
    refine Item.holds_thenExtend (Action.yields_pure extended) copied ?_ ?_
    · intro head first
      exact keeps branch head holds (Action.yields_of_results begun first)
    · intro copy holds' further
      exact keeps_extensions copied absorbed keeps copy item holds' further

end Repetition

namespace Kind

variable {kind : Kind H} {settings prepared : Settings H}

/-- A built-in kind completes its settings with nothing but children. -/
theorem prepare_eq_ok (builtIn : kind.isBuiltIn = true)
    (completed : kind.matcher.prepare settings = .ok prepared) :
    ∃ children, prepared = { settings with children } := by
  cases kind with
  | word shape =>
      rcases Word.prepare_eq_ok completed with rfl | ⟨_, inner, _, rfl⟩
      · exact ⟨_, rfl⟩
      · exact ⟨_, rfl⟩
  | defined shape => simp [isBuiltIn] at builtIn
  | custom shape => simp [isBuiltIn] at builtIn
  | _ =>
      cases completed
      exact ⟨_, rfl⟩

/-- The step of a built-in kind keeps what the children and the literal in a word keep,
if what it adds itself keeps it. -/
theorem keeps_step (builtIn : kind.isBuiltIn = true)
    (completed : kind.matcher.prepare settings = .ok prepared) (copied : Branch.Copied P)
    (absorbs : Branch.Absorbs P settings.marker)
    (absorbed : ∀ repetition, kind = .repetition repetition → repetition.Absorbed P)
    (texts : ∀ text inner, (Literal.matcher { text }).build true
      { marker := settings.marker, onEmission := settings.onEmission } = .ok inner →
        inner.Keeps P)
    (children : settings.ChildrenKeep P) : (kind.matcher.step prepared).Keeps P := by
  cases kind with
  | literal shape =>
      cases completed
      exact shape.keeps_matcher absorbs
  | number shape =>
      cases completed
      exact shape.keeps_matcher absorbs
  | word shape =>
      rcases Word.prepare_eq_ok completed with rfl | ⟨text, inner, built, rfl⟩
      · exact Word.keeps_step absorbs children
      · refine Word.keeps_step absorbs fun child member => ?_
        rw [List.mem_singleton.mp member]
        exact texts text inner built
  | sequence =>
      cases completed
      exact Sequence.keeps_step children
  | fork =>
      cases completed
      exact Fork.keeps_step copied children
  | pick shape =>
      cases completed
      exact Pick.keeps_step shape copied children
  | optional =>
      cases completed
      exact Optional.keeps_step copied children
  | repetition shape =>
      cases completed
      exact Repetition.keeps_step copied (absorbed shape rfl) children
  | freetext shape =>
      cases completed
      exact shape.keeps_step absorbs
  | whitespace =>
      cases completed
      exact Whitespace.keeps_step absorbs
  | defined shape => simp [isBuiltIn] at builtIn
  | custom shape => simp [isBuiltIn] at builtIn

theorem keeps_build {options : RuleOptions H} {children : List (Parser H)} {parser : Parser H}
    (builtIn : kind.isBuiltIn = true) (carried : Branch.Carried P)
    (absorbs : Branch.Absorbs P options.marker)
    (absorbed : ∀ repetition, kind = .repetition repetition → repetition.Absorbed P)
    (keep : ∀ child ∈ children, child.Keeps P) (built : kind.build options children = .ok parser) :
    parser.Keeps P := by
  obtain ⟨prepared, _, completed, rfl⟩ := Matcher.build_eq_ok built
  have marked : prepared.marker = options.marker := by
    obtain ⟨_, rfl⟩ := prepare_eq_ok builtIn completed
    rfl
  apply Parser.keeps_around carried
  · intro branch text _ holds _
    rw [← marked] at absorbs
    exact absorbs.addPlaceholder carried holds text
  · refine keeps_step builtIn completed carried.copied absorbs absorbed ?_ keep
    intro text inner inside
    obtain ⟨_, _, unchanged, rfl⟩ := Matcher.build_eq_ok inside
    cases unchanged
    apply Parser.keeps_around carried
    · intro _ _ shown
      contradiction
    · exact Literal.keeps_matcher _ absorbs

end Kind

namespace Grammar

variable {parser : Parser H} {holder : Holder H} {input : Text} {options : ParseOptions}

/-- What a parser keeps is true of every result, if it is true of the fresh branch. -/
theorem holds_of_keeps {P : Branch H → Prop}
    {cursor : Cursor H (Except Error (ParseResult H))} {result : ParseResult H}
    (keeps : parser.Keeps P)
    (begins : ∀ root, (Branch.root input holder).Results root → P root)
    (begun : (Grammar.parse { parser, holder } input options).Results cursor)
    (yielded : cursor.Yields (.ok result)) : ∃ branch, P branch ∧ result = branch.toResult := by
  obtain ⟨root, item, rooted, found, kept⟩ := yields_parse begun yielded
  cases item with
  | error cause => simp [ParseOptions.result?] at kept
  | ok branch =>
      have holds := keeps root _ (begins root rooted) found branch rfl
      simp only [ParseOptions.result?] at kept
      split at kept
      · contradiction
      · cases kept
        exact ⟨branch, holds, rfl⟩

end Grammar

end Typeahead
