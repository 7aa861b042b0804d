import Mathlib.Data.List.Flatten
import Mathlib.Data.List.TakeWhile
import Typeahead.Proofs.Extending.Rule
import Typeahead.Proofs.Plain.Narrowing

namespace Typeahead

/-! An offered line is accepted once it is typed.

The path that a line spells can be followed along the line itself, and then nothing
of it is offered any more: the parts of a branch that spells no more than its input
were all typed. -/

variable {H : Host}

namespace Path

/-- A path can be followed along its own text, whatever stands behind it. -/
theorem follow?_text (before rest : Text) (path : Path) :
    follow? ⟨before, text path ++ rest⟩ path = some ⟨before ++ text path, rest⟩ := by
  induction path generalizing before with
  | nil => simp [follow?, text]
  | cons piece path ih =>
      have split : text (piece :: path) ++ rest = piece.text ++ (text path ++ rest) :=
        List.append_assoc piece.text (text path) rest
      have whole : Text.overlap? piece.caseSensitive (piece.text ++ (text path ++ rest))
          piece.text = some (.full piece.text (text path ++ rest)) :=
        Text.overlap?_eq_full_iff.mpr ⟨rfl, piece.text, rfl, .refl piece.text⟩
      rw [split, follow?, whole, Option.bind_some]
      change follow? ⟨before ++ piece.text, text path ++ rest⟩ path = _
      rw [ih, List.append_assoc]
      rfl

theorem completes_text (path : Path) : completes (text path) path = true := by
  have followed := follow?_text [] [] path
  rw [List.append_nil] at followed
  simp [completes, followed, Place.isEnd]

end Path

/-- What is offered for some input is offered for the offer itself. -/
theorem Spelling.mem_offers_self {spelling : Spelling} {input line : Text}
    (offered : line ∈ spelling.offers input) : line ∈ spelling.offers line := by
  rw [offers_eq] at offered ⊢
  obtain ⟨path, among, rfl⟩ := List.mem_map.mp offered
  have listed := (List.mem_filter.mp among).1
  exact List.mem_map.mpr ⟨path, List.mem_filter.mpr ⟨listed, Path.completes_text path⟩, rfl⟩

namespace Part

/-- Parts that together are no longer than those of them that were typed were all typed. -/
theorem typed_of_length {parts : List Part}
    (plain : ∀ part ∈ parts, part.isSpelled = true ∧ part.content ≠ [])
    (covered : (spelled parts).length ≤ (contents (parts.filter (·.kind == .input))).length) :
    ∀ part ∈ parts, part.kind = .input := by
  induction parts with
  | nil => simp
  | cons part parts ih =>
      obtain ⟨isSpelled, nonempty⟩ := plain part List.mem_cons_self
      have plain' : ∀ other ∈ parts, other.isSpelled = true ∧ other.content ≠ [] :=
        fun other member => plain other (List.mem_cons_of_mem part member)
      have whole : (spelled (part :: parts)).length =
          part.content.length + (spelled parts).length := by
        have front := spelled_append [part] parts
        rw [List.singleton_append, spelled_singleton isSpelled] at front
        rw [front, List.length_append]
      have positive := List.length_pos_iff.mpr nonempty
      -- typed text is never longer than all the text
      have shorter : (contents (parts.filter (·.kind == .input))).length ≤
          (spelled parts).length := by
        have same : spelled parts = contents parts := by
          rw [spelled, List.filter_eq_self.mpr fun other member => (plain' other member).1]
        rw [same]
        exact (List.filter_sublist.flatMap _).length_le
      by_cases typed : part.kind = .input
      · rw [List.filter_cons_of_pos (by simp [typed]), contents_cons, List.length_append,
          whole] at covered
        intro other member
        rcases List.mem_cons.mp member with rfl | later
        · exact typed
        · exact ih plain' (by omega) other later
      · rw [List.filter_cons_of_neg (by simp [typed]), whole] at covered
        omega

end Part

namespace Branch

variable {branch next : Branch H}

def typedLength (branch : Branch H) : Nat :=
  (Part.contents (branch.parts.filter (·.kind == .input))).length

theorem typedLength_withPart (branch : Branch H) (part : Part) :
    (branch.withPart part).typedLength = branch.typedLength +
      if part.kind = .input then part.content.length else 0 := by
  by_cases typed : part.kind = .input <;> simp [typedLength, typed]

/-- As many characters were typed as are no longer ahead. -/
def Counted (branch : Branch H) : Prop :=
  branch.typedLength + branch.ahead.length = branch.given.length

theorem counted_add {part : Part} (notSpace : part.kind ≠ .whitespace ∨ branch.input = [])
    (counted : branch.Counted) (added : branch.add part = .ok next) : next.Counted := by
  cases add_eq_ok_iff.mp added with
  | beside nonempty kind =>
      rw [Counted, typedLength_withPart, kind]
      exact counted
  | @covering spelled rest nonempty kind split alike =>
      have typed : part.kind = .input := by
        rcases kind with ⟨kind, _⟩ | kind
        · exact kind
        · rcases notSpace with other | used
          · exact absurd kind other
          · rw [used] at split
            have silent := (List.append_eq_nil_iff.mp split.symm).1
            exact absurd (alike.eq_nil_iff.mp silent) nonempty
      have nonempty' : spelled ≠ [] := fun empty => nonempty (alike.eq_nil_iff.mp empty)
      have present := (consumed_input nonempty' split).2
      have ahead : branch.ahead = spelled ++ rest := by simpa [input, present] using split
      rw [Counted, ahead, List.length_append] at counted
      rw [Counted, typedLength_withPart, if_pos typed, ← alike.length_eq]
      change branch.typedLength + spelled.length +
        (Branch.ahead { branch with consumed := branch.consumed + spelled.byteSize }).length =
          branch.given.length
      rw [consumed_ahead split, ahead, List.drop_left]
      omega
  | behind nonempty kind used =>
      have untyped : part.kind ≠ .input := by rcases kind with kind | kind | kind <;> simp [kind]
      obtain ⟨pastEnd, same⟩ := branch.leaveInput_eq part.content
      rw [Counted, typedLength_withPart, if_neg untyped, same]
      exact counted

/-- The typed parts cover the input character by character. -/
theorem counted_grows (counted : branch.Counted) (grows : branch.Grows next) : next.Counted := by
  cases grows with
  | carried data lineage stack => exact counted
  | scored added =>
      rw [addScore_eq_ok added]
      exact counted
  | typed kind added => exact counted_add (.inl (by simp [kind])) counted added
  | skipped left before kind added =>
      have between := counted_add (.inl (by simp [left])) counted before
      exact counted_add (.inl (by simp [kind])) between added
  | offered unfinished kind used added => exact counted_add (.inr used) counted added
  | @heldOpen shown part unfinished kind added =>
      have shownCounted := counted_add (.inl (by simp [kind])) counted added
      exact shownCounted
  | finished used => exact counted

theorem counted_grown (counted : branch.Counted) (grown : branch.Grown next) : next.Counted := by
  induction grown with
  | refl => exact counted
  | tail _ step ih => exact counted_grows ih step

theorem At.line {place : Place} (here : branch.At place) :
    branch.toResult.line = place.spelled := by
  have line : ∀ part ∈ branch.parts, part.isLine = true := by
    intro part member
    have unfinished := here.unfinished
    simp only [isFinished, Bool.or_eq_false_iff] at unfinished
    have other := (List.any_eq_false.mp unfinished.2) part member
    simpa [Part.isLine] using other
  have all : ∀ part ∈ branch.parts, part.isSpelled = true := fun part member =>
    (here.plain part member).1
  rw [← here.spelled, ParseResult.line, Branch.spelled, Part.spelled, List.filter_eq_self.mpr all]
  exact congrArg Part.contents (List.takeWhile_eq_self_iff.mpr line)

/-- A branch that used up its input and spells nothing else was typed in full. -/
theorem At.typed {place : Place} (here : branch.At place)
    (counted : branch.Counted) (used : branch.input = [])
    (given : branch.given = place.spelled) : ∀ part ∈ branch.parts, part.kind = .input := by
  refine Part.typed_of_length here.plain ?_
  rw [Counted, ← here.sound.input_eq, used, List.length_nil, Nat.add_zero] at counted
  have spelled : (Part.spelled branch.parts).length = branch.given.length := by
    rw [given, ← here.spelled]
    rfl
  rw [spelled]
  exact counted.ge

end Branch

namespace Rule

theorem Plain.builtIn {rule : Rule H} (plain : rule.Plain) : rule.BuiltIn := by
  induction plain with
  | @node kind options children here _ ih =>
      refine .node ?_ ih
      have isPlain := here.isPlain
      cases kind with
      | number _ | repetition _ | freetext _ | whitespace | defined _ | custom _ =>
          exact isPlain.elim
      | literal _ | word _ | sequence | fork | pick _ | optional => rfl

end Rule

namespace Grammar

variable {rule : Rule H} {parser : Parser H} {holder : Holder H} {input : Text}

/-- By default a result is a branch that used up its input. -/
theorem exists_of_mem_parseAll {grammar : Grammar H} {world : H.World}
    {results : List (ParseResult H)} {result : ParseResult H}
    (answered : ((grammar.parseAll input {}) world).result = .ok results)
    (member : result ∈ results) :
    ∃ root branch, (Branch.root input grammar.holder).Results root ∧
      (grammar.parser.start root).Yields (.ok branch) ∧ branch.input = [] ∧
      result = branch.toResult := by
  have given : (grammar.results input {}).Gives (results.map .ok) :=
    ⟨_, ⟨world, rfl⟩, Run.gives_of_collect answered⟩
  obtain ⟨root, items, rooted, gives, kept⟩ := gives_results given
  have among : .ok result ∈ items.filterMap ({} : ParseOptions).result? :=
    kept ▸ List.mem_map_of_mem member
  obtain ⟨item, inside, through⟩ := List.mem_filterMap.mp among
  obtain ⟨branch, rfl, same, used⟩ := result?_eq_ok through
  exact ⟨root, branch, rooted, ⟨items, gives, inside⟩,
    Branch.hasInput_eq_false_iff.mp (used rfl), same⟩

/-- Where a branch of a plain parser stands, and what it was typed of. -/
theorem stands_of_yields {spelling : Spelling} {root branch : Branch H} (builtIn : rule.BuiltIn)
    (built : rule.build = .ok parser) (realizes : parser.Realizes spelling)
    (rooted : (Branch.root input holder).Results root)
    (yielded : (parser.start root).Yields (.ok branch)) :
    ∃ place ∈ spelling.reach ⟨[], input⟩, branch.At place ∧ branch.given = input ∧
      branch.Counted := by
  have start : root.At ⟨[], input⟩ := .root rooted
  have leads := builtIn.tame built root _ start.sound yielded
  have given := (builtIn.founded.extending built root _ yielded branch rfl).given
  obtain ⟨items, gives, member⟩ := yielded
  obtain ⟨data, rfl⟩ := Branch.root_results rooted
  obtain ⟨place, among, next, same, here⟩ :=
    exists_of_mem_forall₂ (realizes _ _ items start gives).flip member
  cases same
  have counted : Branch.Counted ({ given := input, holder, data } : Branch H) := by
    rw [Branch.Counted, Branch.ahead_of_start rfl]
    exact Nat.zero_add _
  cases leads with
  | grown further => exact ⟨place, among, here, given, Branch.counted_grown counted further⟩

/-- Typing an offered line in full is answered by a result that was typed in full and
spells that line. -/
theorem offer_accepted (plain : rule.Plain) (built : rule.build = .ok parser)
    {cursor : Cursor H (Except Error (ParseResult H))} {offer : ParseResult H}
    (begun : (Grammar.parse { parser, holder } input {}).Results cursor)
    (offered : cursor.Yields (.ok offer)) (later : H.World) :
    ∃ results accepted,
      ((Grammar.parseAll { parser, holder } offer.line {}) later).result = .ok results ∧
      accepted ∈ results ∧ (∀ part ∈ accepted.parts, part.kind = .input) ∧
      accepted.input = [] ∧ accepted.spelled = offer.line := by
  have builtIn := plain.builtIn
  obtain ⟨spelling, realizes⟩ := plain.realizes built
  have listed : offer.line ∈ spelling.offers input := by
    obtain ⟨root, item, rooted, found, kept⟩ := yields_parse begun offered
    obtain ⟨branch, rfl, rfl, covered⟩ := result?_eq_ok kept
    have used := Branch.hasInput_eq_false_iff.mp (covered rfl)
    obtain ⟨place, among, here, _⟩ := stands_of_yields builtIn built realizes rooted found
    have isEnd : place.isEnd = true := List.isEmpty_iff.mpr (here.left.symm.trans used)
    exact List.mem_map.mpr ⟨place, List.mem_filter.mpr ⟨among, isEnd⟩, here.line.symm⟩
  obtain ⟨results, answered, lines⟩ : ∃ results,
      ((Grammar.parseAll { parser, holder } offer.line {}) later).result = .ok results ∧
        results.map (·.spelled) = spelling.offers offer.line :=
    parseAll_offers realizes offer.line later
  have again : offer.line ∈ results.map (·.spelled) := lines ▸ Spelling.mem_offers_self listed
  obtain ⟨accepted, member, spelled⟩ := List.mem_map.mp again
  obtain ⟨root', branch, rooted', found', used, rfl⟩ := exists_of_mem_parseAll answered member
  obtain ⟨place, _, here, given, counted⟩ :=
    stands_of_yields builtIn built realizes rooted' found'
  refine ⟨results, _, answered, member, ?_, used, spelled⟩
  exact here.typed counted used (given.trans (spelled.symm.trans here.spelled))

theorem offer_accepted_commands : ∃ parser cursor offer,
    commands.build = .ok parser ∧
    (Grammar.parse { parser, holder := .plain () } ['G'] {}).Results cursor ∧
    cursor.Yields (.ok offer) ∧
    offer.parts.map (·.kind) = [.input, .suggestion, .whitespace, .suggestion, .suggestion] ∧
    offer.line = ['g', 'o', ' ', 'h', 'o', 'm', 'e', ' '] ∧
    ∃ results accepted,
      ((Grammar.parseAll { parser, holder := .plain () } offer.line {}) ()).result = .ok results ∧
      accepted ∈ results ∧ (∀ part ∈ accepted.parts, part.kind = .input) ∧
      accepted.input = [] ∧ accepted.spelled = offer.line := by
  obtain ⟨parser, built⟩ : ∃ parser, commands.build = .ok parser := ⟨_, rfl⟩
  have answers : commands.build.toOption.all (fun parser =>
      (((Grammar.parse { parser, holder := .plain () } ['G'] {}) ()).result.next
        ()).result.1.any fun
          | .ok offer => offer.parts.map (·.kind) =
              [.input, .suggestion, .whitespace, .suggestion, .suggestion] ∧
              offer.line = ['g', 'o', ' ', 'h', 'o', 'm', 'e', ' ']
          | .error _ => false) = true := by decide +kernel
  rw [built] at answers
  obtain ⟨answer, answered, offers⟩ := (Option.any_eq_true _ _).mp answers
  cases answer with
  | error cause => contradiction
  | ok offer =>
      have yielded := Cursor.yields_next answered
      obtain ⟨kinds, line⟩ := of_decide_eq_true offers
      exact ⟨parser, _, offer, built, ⟨(), rfl⟩, yielded, kinds, line,
        offer_accepted commands_plain built ⟨(), rfl⟩ yielded ()⟩

end Grammar

end Typeahead
