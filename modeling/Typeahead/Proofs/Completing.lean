import Typeahead.Proofs.Branch.Reading
import Typeahead.Proofs.Keeping
import Typeahead.Proofs.Tame.Grammar

namespace Typeahead

/-! Branches without input are completed, never refused.

What a built-in parser makes of a branch whose input is used up is a branch, and the
input stays used up.  A text is offered as it stands, nothing is captured, and so no
penalty is due that could be refused. -/

variable {H : Host}

/-- A branch whose input is used up. -/
def Item.Complete (item : Item H) : Prop := ∃ next, item = .ok next ∧ next.input = []

def Step.Completes (step : Step H) : Prop :=
  ∀ branch item, branch.input = [] → (step branch).Yields item → item.Complete

def Parser.Completes (parser : Parser H) : Prop := Step.Completes parser.start

def Settings.ChildrenComplete (settings : Settings H) : Prop :=
  ∀ child ∈ settings.children, child.Completes

namespace Item

variable {first item carried : Item H} {branch : Branch H}

theorem complete_ok (used : branch.input = []) : Complete (.ok branch) := ⟨branch, rfl, used⟩

theorem complete_bind {rest : Branch H → Item H} (begins : first.Complete)
    (goes : ∀ middle, middle.input = [] → (rest middle).Complete) : Complete (first >>= rest) := by
  obtain ⟨middle, rfl, used⟩ := begins
  exact goes middle used

theorem Complete.carries (complete : item.Complete) (carries : item.Carries carried) :
    carried.Complete := by
  obtain ⟨next, rfl, used⟩ := complete
  cases carries
  exact complete_ok used

theorem complete_thenExtend {run : Run H (Item H)}
    {extend : Branch H → Action H (Run H (Item H))}
    (yielded : (run.thenExtend extend).Yields item)
    (heads : ∀ head, run.Yields head → head.Complete)
    (further : ∀ copy, copy.input = [] → (extend copy).Yields item → item.Complete) :
    item.Complete := by
  rcases Run.yields_thenExtend yielded with head | ⟨next, copy, head, copied, extended⟩
  · exact heads item head
  · obtain ⟨same, found, used⟩ := heads _ head
    cases found
    exact further copy ((Branch.fork_input copied).trans used) extended

end Item

namespace Branch

variable {branch : Branch H}

theorem complete_add {part : Part} (used : branch.input = [])
    (nonempty : part.content ≠ [] ∨ part.kind = .placeholder)
    (kind : part.kind = .whitespace ∨ part.kind = .suggestion ∨ part.kind = .placeholder) :
    Item.Complete (branch.add part) := by
  rw [add_behind nonempty kind used]
  exact Item.complete_ok (leaveInput_input part.content used)

theorem complete_placeholder (used : branch.input = []) (text : Text)
    (marker : Option Marker) :
    Item.Complete (branch.add { content := text, kind := .placeholder, marker }) :=
  complete_add used (.inr rfl) (.inr (.inr rfl))

theorem complete_addOverlap {caseSensitive : Bool} {text : Text} {overlap : Text.Overlap}
    (used : branch.input = []) (nonempty : text ≠ [])
    (found : Text.overlap? caseSensitive [] text = some overlap) (marker : Option Marker) :
    Item.Complete (branch.addOverlap marker overlap) := by
  cases overlap with
  | full matched rest =>
      obtain ⟨_, spelled, split, alike⟩ := Text.overlap?_eq_full_iff.mp found
      have untyped : spelled = [] := (List.append_eq_nil_iff.mp split.symm).1
      exact absurd (alike.eq_nil_iff.mp untyped) nonempty
  | begun typed pending =>
      rw [← used] at found
      rw [addOverlap_begun (fun _ => used) found]
      exact Item.complete_ok rfl

theorem complete_addSegments {segments : List Text.Segment} (used : branch.input = [])
    (reads : Text.Reads [] segments) (marker : Option Marker) :
    Item.Complete (segments.foldlM (addSegment marker) branch) := by
  generalize nothing : ([] : Text) = input at reads
  have untyped : ∀ {lead rest content : Text}, [] = lead ++ rest → content ≠ [] →
      ¬ Text.Alike false lead content := by
    intro lead rest content split nonempty alike
    exact nonempty (alike.eq_nil_iff.mp (List.append_eq_nil_iff.mp split.symm).1)
  cases reads with
  | done => exact Item.complete_ok used
  | @pending content nonempty =>
      have offered : Item.Complete (addSegment marker branch ⟨content, .pending⟩) :=
        complete_add used (.inl nonempty) (.inr (.inl rfl))
      rw [List.foldlM_cons]
      exact Item.complete_bind offered fun next => Item.complete_ok
  | typed nonempty alike others => exact absurd alike (untyped nothing nonempty)
  | skipped gap nonempty alike others => exact absurd alike (untyped nothing nonempty)

end Branch

namespace Settings

variable {settings : Settings H} {branch : Branch H}

theorem complete_addPlaceholder (used : branch.input = []) (text : Text) :
    (settings.addPlaceholder text branch).Complete :=
  Item.complete_bind (Branch.complete_placeholder used text settings.marker)
    fun shown left => ⟨shown.finish, rfl, left⟩

theorem complete_yieldExtended {extended item : Item H} {emission : Option (Emission H)}
    (complete : extended.Complete)
    (yielded : (settings.yieldExtended extended emission).Yields item) : item.Complete :=
  complete.carries (yields_yieldExtended yielded)

end Settings

theorem Parser.completes_around {name : String} {enabled : Bool} {settings : Settings H}
    {matching : Step H} (completes : matching.Completes) :
    (Parser.around name enabled settings matching).Completes := by
  intro branch item used yielded
  cases yields_around yielded with
  | passed => exact Item.complete_ok used
  | shown => exact Settings.complete_addPlaceholder used _
  | finished => exact Item.complete_ok used
  | matched unfinished found =>
      obtain ⟨next, rfl, left⟩ := completes (branch.pushStack name) _ used found
      exact Item.complete_ok left
  | fellBack unfinished _ copied =>
      exact Settings.complete_addPlaceholder ((Branch.fork_input copied).trans used) _

/-! ### Parsers without children -/

theorem Literal.completes_matcher {literal : Literal} (nonempty : literal.text ≠ [])
    (settings : Settings H) : (literal.matcher.step settings).Completes := by
  intro branch item used yielded
  dsimp only [matcher] at yielded
  split at yielded
  · rw [fuzzyStep] at yielded
    split at yielded
    · exact absurd yielded Action.not_yields_empty
    · rename_i segments found
      rw [used] at found
      have reads := Text.Reads.of_segments? nonempty found
      exact Settings.complete_yieldExtended (Branch.complete_addSegments used reads _) yielded
  · rw [step] at yielded
    split at yielded
    · exact absurd yielded Action.not_yields_empty
    · rename_i overlap found
      rw [used] at found
      exact Settings.complete_yieldExtended
        (Branch.complete_addOverlap used nonempty found _) yielded

theorem Number.completes_matcher (number : Number) (settings : Settings H) :
    (number.matcher.step settings).Completes := by
  intro branch item used yielded
  dsimp only [matcher] at yielded
  split at yielded
  · rw [offerStep] at yielded
    split at yielded
    · obtain ⟨fit, _, _, offered⟩ := yields_offersFrom (Action.yields_pure yielded)
      rw [offer] at offered
      split at offered
      · exact absurd offered Action.not_yields_empty
      · rename_i overlap found
        obtain ⟨copy, copied, extended⟩ := Action.yields_bind offered
        rw [used] at found
        exact Settings.complete_yieldExtended (Branch.complete_addOverlap
          ((Branch.fork_input copied).trans used) (Text.ofInt_ne_nil fit) found _) extended
    · exact absurd yielded Action.not_yields_empty
  · rw [readStep] at yielded
    split at yielded
    · exact absurd yielded Action.not_yields_empty
    · rename_i numeral found
      obtain ⟨lead, nonempty⟩ := Text.Numeral.leading?_prefix found
      rw [used] at lead
      exact absurd (List.prefix_nil.mp lead) nonempty

theorem Whitespace.completes_step (settings : Settings H) :
    (Whitespace.step settings).Completes := by
  intro branch item used yielded
  rw [step, used] at yielded
  exact absurd yielded Action.not_yields_empty

theorem Freetext.completes_step (freetext : Freetext H) (settings : Settings H) :
    (freetext.step settings).Completes := by
  intro branch item used yielded
  obtain ⟨length, member, _⟩ := Run.yields_concatMap (Action.yields_pure yielded)
  have captured := Text.wordEnds_capture member
  rw [used] at captured
  exact absurd List.take_nil captured

/-! ### Parsers around others -/

section

variable {settings : Settings H}

theorem Fork.completes_step (children : settings.ChildrenComplete) :
    (Fork.step settings).Completes := by
  intro branch item used yielded
  obtain ⟨child, member, started⟩ := Run.yields_concatMap (Action.yields_pure yielded)
  obtain ⟨copy, copied, continued⟩ := Action.yields_bind started
  exact children child member copy item ((Branch.fork_input copied).trans used) continued

theorem Optional.completes_step (children : settings.ChildrenComplete) :
    (Optional.step settings).Completes := by
  intro branch item used yielded
  obtain ⟨skipped, copied, rest⟩ := Action.yields_bind yielded
  rcases Run.yields_cons (Action.yields_pure rest) with rfl | later
  · exact Item.complete_ok ((Branch.fork_input copied).trans used)
  · have continued := Run.yields_defer later
    split at continued
    · exact absurd continued Action.not_yields_empty
    · rename_i child others same
      exact children child (by simp [same]) branch item used continued

namespace Pick

theorem completes_chains {depth : Nat} {unused : List (Parser H)} {branch : Branch H}
    {item : Item H} (complete : ∀ child ∈ unused, child.Completes) (used : branch.input = [])
    (yielded : (chains depth unused branch).Yields item) : item.Complete := by
  induction depth generalizing unused branch with
  | zero => exact absurd yielded Run.not_yields_empty
  | succ depth ih =>
      obtain ⟨⟨child, others⟩, member, started⟩ := Run.yields_concatMap yielded
      obtain ⟨inUnused, inside⟩ := mem_selections member
      obtain ⟨copy, copied, continued⟩ := Action.yields_bind started
      obtain ⟨run, begun, chained⟩ := Action.yields_bind continued
      have left := (Branch.fork_input copied).trans used
      apply Item.complete_thenExtend (Action.yields_pure chained)
      · intro head first
        exact complete child inUnused copy head left (Action.yields_of_results begun first)
      · intro rest left extended
        exact ih (fun other found => complete other (inside other found)) left
          (Action.yields_pure extended)

theorem completes_step (pick : Pick) (children : settings.ChildrenComplete) :
    (pick.step settings).Completes := by
  intro branch item used yielded
  exact completes_chains children used (yields_step yielded)

end Pick

namespace Sequence

theorem complete_level {child : Parser H} {live : List (Branch H)} {items : List (Item H)}
    (completes : child.Completes) (used : ∀ branch ∈ live, branch.input = [])
    (ran : (level child live).Results items) :
    errorsOf items = [] ∧ ∀ branch ∈ branchesOf items, branch.input = [] := by
  have each : ∀ item ∈ items, item.Complete := by
    intro item member
    obtain ⟨branch, among, yielded⟩ := yields_of_level ran member
    exact completes branch item (used branch among) yielded
  constructor
  · apply List.eq_nil_iff_forall_not_mem.mpr
    intro cause member
    obtain ⟨next, impossible, _⟩ := each _ (mem_errorsOf.mp member)
    contradiction
  · intro branch member
    obtain ⟨next, same, left⟩ := each _ (mem_branchesOf.mp member)
    cases same
    exact left

theorem complete_levels {children : List (Parser H)} {live survivors : List (Branch H)}
    {errors : List Error} (complete : ∀ child ∈ children, child.Completes)
    (used : ∀ branch ∈ live, branch.input = [])
    (ran : (levels children live).Results (errors, survivors)) :
    errors = [] ∧ ∀ branch ∈ survivors, branch.input = [] := by
  induction children generalizing live errors survivors with
  | nil =>
      cases Action.results_pure ran
      exact ⟨rfl, used⟩
  | cons child others ih =>
      obtain ⟨items, later, ofLevel, ofOthers, rfl⟩ := levels_cons ran
      obtain ⟨unfailed, continued⟩ :=
        complete_level (complete child List.mem_cons_self) used ofLevel
      obtain ⟨rfl, survive⟩ := ih (fun other member =>
        complete other (List.mem_cons_of_mem child member)) continued ofOthers
      exact ⟨by rw [unfailed, List.append_nil], survive⟩

theorem completes_step (children : settings.ChildrenComplete) :
    (Sequence.step settings).Completes := by
  intro branch item used yielded
  obtain ⟨errors, survivors, ran, found⟩ := yields_step yielded
  have alone : ∀ other ∈ [branch], other.input = [] := by
    intro other member
    rw [List.mem_singleton.mp member]
    exact used
  obtain ⟨rfl, survive⟩ := complete_levels children alone ran
  obtain ⟨next, member, rfl⟩ := found.resolve_left (by simp)
  exact Item.complete_ok (survive next member)

end Sequence

namespace Word

variable {branch : Branch H} {marker : Option Marker} {item : Item H}

theorem complete_opened? (used : branch.input = []) (opened : opened? marker branch = some item) :
    item.Complete := by
  rw [opened?] at opened
  split at opened
  · cases opened
    exact Item.complete_ok used
  · split at opened
    · rename_i opens
      simp [used, Text.startsWithSpace] at opens
    · split at opened
      · contradiction
      · cases opened
        exact Branch.complete_add used (.inl (List.cons_ne_nil _ _)) (.inl rfl)

theorem complete_closed? (used : branch.input = []) (closed : closed? marker branch = some item) :
    item.Complete := by
  rw [closed?] at closed
  split at closed
  · rename_i opens
    simp [used, Text.startsWithSpace] at opens
  · split at closed
    · cases closed
      exact Item.complete_ok used
    · split at closed
      · contradiction
      · cases closed
        exact Branch.complete_add used (.inl (List.cons_ne_nil _ _)) (.inr (.inl rfl))

theorem completes_step (nonempty : settings.children ≠ [])
    (children : settings.ChildrenComplete) : (Word.step settings).Completes := by
  intro branch item used yielded
  rw [step] at yielded
  split at yielded
  · exact absurd yielded Action.not_yields_empty
  · rename_i cause opened
    obtain ⟨next, impossible, _⟩ := complete_opened? used opened
    contradiction
  · contradiction
  · rename_i next child others opened among
    obtain ⟨entered, same, left⟩ := complete_opened? used opened
    cases same
    obtain ⟨run, begun, filtered⟩ := Action.yields_bind yielded
    obtain ⟨inner, found, closes⟩ := Run.yields_filterMap (Action.yields_pure filtered)
    obtain ⟨last, rfl, behind⟩ := children child (by simp [among]) next inner left
      (Action.yields_of_results begun found)
    exact complete_closed? behind closes

end Word

namespace Repetition

variable {repetition : Repetition} {child : Parser H} {branch : Branch H} {item : Item H}

theorem complete_glued {extend : Branch H → Action H (Run H (Item H))} {glue : Text}
    (completes : child.Completes) (nonempty : glue ≠ []) (used : branch.input = [])
    (further : ∀ copy, copy.input = [] → (extend copy).Yields item → item.Complete)
    (yielded : (glued child extend branch glue).Yields item) : item.Complete := by
  rw [glued] at yielded
  split at yielded
  · exact absurd yielded Action.not_yields_empty
  · rename_i overlap found
    obtain ⟨copy, copied, joining⟩ := Action.yields_bind yielded
    rw [used] at found
    obtain ⟨joined, added, left⟩ :=
      Branch.complete_addOverlap ((Branch.fork_input copied).trans used) nonempty found none
    simp only [added] at joining
    split at joining
    · rw [Run.yields_one (Action.yields_pure joining)]
      exact Item.complete_ok left
    · obtain ⟨run, begun, extended⟩ := Action.yields_bind joining
      apply Item.complete_thenExtend (Action.yields_pure extended)
      · intro head first
        exact completes joined head left (Action.yields_of_results begun first)
      · exact further

theorem completes_extensions {remaining : Nat} (completes : child.Completes)
    (nonempty : ∀ glue ∈ repetition.glue, glue ≠ []) :
    (repetition.extensions child remaining).Completes := by
  -- each further occurrence takes one from the number that is still allowed
  induction remaining with
  | zero => exact fun branch item _ yielded => absurd yielded Action.not_yields_empty
  | succ allowed ih =>
      intro branch item used yielded
      cases allowed with
      | zero => exact absurd yielded Action.not_yields_empty
      | succ remaining =>
          rw [extensions] at yielded
          split at yielded
          · exact absurd yielded Action.not_yields_empty
          · split at yielded
            · rename_i text shown
              rw [Run.yields_one (Action.yields_pure yielded)]
              exact Item.complete_bind (Branch.complete_placeholder used text none)
                fun held left => ⟨held.finish, rfl, left⟩
            · obtain ⟨glue, among, joined⟩ := Run.yields_concatMap (Action.yields_pure yielded)
              exact complete_glued completes (nonempty glue among) used
                (fun copy => ih copy item) joined

theorem completes_step (nonempty : ∀ glue ∈ repetition.glue, glue ≠ [])
    (children : settings.ChildrenComplete) : (repetition.step settings).Completes := by
  intro branch item used yielded
  rw [step] at yielded
  split at yielded
  · exact absurd yielded Action.not_yields_empty
  · rename_i child others among
    have completes := children child (by simp [among])
    obtain ⟨run, begun, extended⟩ := Action.yields_bind yielded
    apply Item.complete_thenExtend (Action.yields_pure extended)
    · intro head first
      exact completes branch head used (Action.yields_of_results begun first)
    · intro copy left further
      exact completes_extensions completes nonempty copy item left further

end Repetition

end

/-! ### Trees -/

namespace Kind

variable {kind : Kind H} {options : RuleOptions H} {children : List (Parser H)} {parser : Parser H}
  {settings prepared : Settings H}

theorem completes_step (builtIn : kind.isBuiltIn = true)
    (checked : kind.matcher.check settings = .ok ())
    (completed : kind.matcher.prepare settings = .ok prepared)
    (below : settings.ChildrenComplete) : (kind.matcher.step prepared).Completes := by
  cases kind with
  | literal shape => exact Literal.completes_matcher (Literal.check_eq_ok checked) prepared
  | number shape => exact shape.completes_matcher prepared
  | word shape =>
      apply Word.completes_step (Word.prepared_nonempty checked completed)
      rcases Word.prepare_eq_ok completed with rfl | ⟨text, inner, inside, rfl⟩
      · exact below
      · intro child member
        obtain ⟨_, nonempty, _, rfl⟩ := Matcher.build_eq_ok inside
        rw [List.mem_singleton.mp member]
        exact Parser.completes_around
          (Literal.completes_matcher (Literal.check_eq_ok nonempty) _)
  | sequence =>
      cases completed
      exact Sequence.completes_step below
  | fork =>
      cases completed
      exact Fork.completes_step below
  | pick shape =>
      cases completed
      exact Pick.completes_step shape below
  | optional =>
      cases completed
      exact Optional.completes_step below
  | repetition shape =>
      cases completed
      exact Repetition.completes_step (Repetition.check_eq_ok checked) below
  | freetext shape => exact shape.completes_step prepared
  | whitespace => exact Whitespace.completes_step prepared
  | defined shape => simp [isBuiltIn] at builtIn
  | custom shape => simp [isBuiltIn] at builtIn

theorem completes_build (builtIn : kind.isBuiltIn = true)
    (complete : ∀ child ∈ children, child.Completes)
    (built : kind.build options children = .ok parser) : parser.Completes := by
  obtain ⟨prepared, checked, completed, rfl⟩ := Matcher.build_eq_ok built
  apply Parser.completes_around
  exact completes_step builtIn checked completed complete

end Kind

theorem Rule.BuiltIn.completes {rule : Rule H} {parser : Parser H} (builtIn : rule.BuiltIn)
    (built : rule.build = .ok parser) : parser.Completes := by
  refine Every.built (Q := fun _ parser => parser.Completes) ?_ builtIn built
  intro kind options children parsers parser here below made
  apply Kind.completes_build here ?_ made
  intro child member
  obtain ⟨_, _, completes⟩ := exists_of_mem_forall₂ below member
  exact completes

end Typeahead
