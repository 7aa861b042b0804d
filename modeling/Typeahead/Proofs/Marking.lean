import Typeahead.Proofs.Keeping

namespace Typeahead

/-! The markers of what is found.

Where all rules of a tree have one marker, all parts of a result have it, apart from
what its repetitions add between the occurrences of their children. -/

variable {H : Host} {Q : Part → Prop}

namespace Repetition

/-- What a repetition adds itself, and never with a marker: glue as far as it was typed,
the glue that is left to type, and its placeholder. -/
inductive Adds (repetition : Repetition) : Part → Prop
  | typed {front behind : Text} (among : front ++ behind ∈ repetition.glue) :
      Adds repetition { content := front, kind := .input }
  | offered {front behind : Text} (among : front ++ behind ∈ repetition.glue) :
      Adds repetition { content := behind, kind := .suggestion }
  | held {text : Text} (shown : repetition.placeholder? = some text) :
      Adds repetition { content := text, kind := .placeholder }

end Repetition

namespace Branch

def EachPart (Q : Part → Prop) (branch : Branch H) : Prop := ∀ part ∈ branch.parts, Q part

variable {branch : Branch H}

theorem eachPart_add {part : Part} (holds : branch.EachPart Q) (fits : Q part) :
    Item.Holds (EachPart Q) (branch.add part) := by
  intro next added
  obtain ⟨consumed, pastEnd, rfl⟩ := add_eq_ok added
  intro other member
  rcases List.mem_append.mp member with before | last
  · exact holds other before
  · rw [List.mem_singleton.mp last]
    exact fits

theorem copied_eachPart : Copied (H := H) (EachPart Q) := by
  intro branch copy holds made
  obtain ⟨data, rfl⟩ := fork_results made
  exact holds

theorem carried_eachPart : Carried (H := H) (EachPart Q) where
  copied := copied_eachPart
  stacked _ _ holds := holds
  finished _ holds := holds

theorem absorbs_eachPart {marker : Option Marker}
    (fits : ∀ content kind, Q { content, kind, marker }) :
    Absorbs (H := H) (EachPart Q) marker where
  copied := copied_eachPart
  part branch content kind holds := eachPart_add holds (fits content kind)
  factor branch factor holds := by
    intro next added
    rw [addScore_eq_ok added]
    exact holds
  data _ _ holds := holds

end Branch

theorem Repetition.absorbed_eachPart {repetition : Repetition}
    (fits : ∀ part, repetition.Adds part → Q part) :
    repetition.Absorbed (H := H) (Branch.EachPart Q) where
  glued branch glue overlap among holds found := by
    cases overlap with
    | full matched rest =>
        obtain ⟨rfl, _⟩ := Text.overlap?_eq_full_iff.mp found
        have whole : matched ++ [] ∈ repetition.glue := by simpa using among
        exact Branch.eachPart_add holds (fits _ (.typed whole))
    | begun typed suggestion =>
        obtain ⟨rfl, _⟩ := Text.overlap?_eq_begun_iff.mp found
        rw [Branch.addOverlap]
        split
        · exact Branch.eachPart_add holds (fits _ (.offered among))
        · exact Item.holds_bind (Branch.eachPart_add holds (fits _ (.typed among)))
            fun begun held => Branch.eachPart_add held (fits _ (.offered among))
  held branch text shown holds :=
    Item.holds_bind (Branch.eachPart_add holds (fits _ (.held shown)))
      fun _ held => Item.holds_ok held

namespace Rule

/-- Some rule of the tree is of the kind. -/
inductive Contains (kind : Kind H) : Rule H → Prop
  | here {options : RuleOptions H} {children : List (Rule H)} :
      Contains kind (.node kind options children)
  | within {other : Kind H} {options : RuleOptions H} {children : List (Rule H)} {child : Rule H}
      (member : child ∈ children) (inside : Contains kind child) :
      Contains kind (.node other options children)

variable {rule : Rule H} {parser : Parser H}

theorem Every.contains {P : Kind H → RuleOptions H → Prop} (every : rule.Every P) :
    rule.Every fun kind options => P kind options ∧ rule.Contains kind := by
  induction every with
  | node here _ ih =>
      refine .node ⟨here, .here⟩ fun child member => ?_
      apply (ih child member).mono
      intro kind options known
      exact ⟨known.1, .within member known.2⟩

/-- What the parts of a tree are if all its rules have the marker. -/
def Adds (rule : Rule H) (marker : Marker) (part : Part) : Prop :=
  part.marker = some marker ∨
    ∃ repetition, rule.Contains (.repetition repetition) ∧ repetition.Adds part

theorem keeps_marked {marker : Marker}
    (marked : rule.Every fun kind options =>
      kind.isBuiltIn = true ∧ options.marker = some marker)
    (built : rule.build = .ok parser) :
    parser.Keeps (Branch.EachPart (rule.Adds marker)) := by
  refine Every.built (Q := fun _ parser => parser.Keeps (Branch.EachPart (rule.Adds marker)))
    ?_ marked.contains built
  rintro kind options children parsers parser ⟨⟨builtIn, same⟩, inside⟩ below made
  refine Kind.keeps_build builtIn Branch.carried_eachPart ?_ ?_ ?_ made
  · apply Branch.absorbs_eachPart
    intro content kind
    exact .inl same
  · rintro repetition rfl
    apply Repetition.absorbed_eachPart
    intro part added
    exact .inr ⟨repetition, inside, added⟩
  · intro child member
    obtain ⟨_, _, keeps⟩ := exists_of_mem_forall₂ below member
    exact keeps

end Rule

namespace Grammar

variable {rule : Rule H} {parser : Parser H} {holder : Holder H} {input : Text}
  {options : ParseOptions}

/-- Every part has the marker that all rules have, or is what a repetition of the tree
adds without one. -/
theorem parse_marked {marker : Marker} {cursor : Cursor H (Except Error (ParseResult H))}
    {result : ParseResult H}
    (marked : rule.Every fun kind options =>
      kind.isBuiltIn = true ∧ options.marker = some marker)
    (built : rule.build = .ok parser)
    (begun : (Grammar.parse { parser, holder } input options).Results cursor)
    (yielded : cursor.Yields (.ok result)) :
    ∀ part ∈ result.parts, part.marker = some marker ∨
      ∃ repetition, rule.Contains (.repetition repetition) ∧ repetition.Adds part := by
  have begins : ∀ root, (Branch.root input holder).Results root →
      root.EachPart (rule.Adds marker) := by
    intro root rooted part member
    obtain ⟨data, rfl⟩ := Branch.root_results rooted
    contradiction
  obtain ⟨branch, holds, rfl⟩ :=
    holds_of_keeps (rule.keeps_marked marked built) begins begun yielded
  exact holds

def field : Marker := ⟨1, "entry"⟩

/-- Entries with commas between them, all of one field. -/
def entries : Rule Host.quiet :=
  .node (.repetition { glue := [[',']] }) { marker := some field } [
    .node (.literal { text := ['a'] }) { marker := some field } []]

theorem entries_marked : entries.Every fun kind options =>
    kind.isBuiltIn = true ∧ options.marker = some field := by
  refine .node ⟨rfl, rfl⟩ ?_
  intro child member
  rw [List.mem_singleton.mp member]
  exact .node ⟨rfl, rfl⟩ (by simp)

/-- The parts that a pull of the entries is answered with. -/
theorem yields_entries : ∃ parser cursor result,
    entries.build = .ok parser ∧
    (Grammar.parse { parser, holder := .plain () } ['a', ',', 'a'] {}).Results cursor ∧
    cursor.Yields (.ok result) ∧
    result.parts = [⟨['a'], .input, some field⟩, ⟨[','], .input, none⟩,
      ⟨['a'], .input, some field⟩] := by
  obtain ⟨parser, built⟩ : ∃ parser, entries.build = .ok parser := ⟨_, rfl⟩
  have answers : entries.build.toOption.all (fun parser =>
      (((Grammar.parse { parser, holder := .plain () } ['a', ',', 'a'] {}) ()).result.next
        ()).result.1.any fun
          | .ok result => result.parts = [⟨['a'], .input, some field⟩, ⟨[','], .input, none⟩,
              ⟨['a'], .input, some field⟩]
          | .error _ => false) = true := by decide +kernel
  rw [built] at answers
  obtain ⟨answer, answered, parts⟩ := (Option.any_eq_true _ _).mp answers
  cases answer with
  | error cause => contradiction
  | ok result =>
      exact ⟨parser, _, result, built, ⟨(), rfl⟩, Cursor.yields_next answered,
        of_decide_eq_true parts⟩

theorem parse_marked_entries : ∃ parser cursor result,
    entries.build = .ok parser ∧
    (Grammar.parse { parser, holder := .plain () } ['a', ',', 'a'] {}).Results cursor ∧
    cursor.Yields (.ok result) ∧ result.parts.length = 3 ∧
    ∀ part ∈ result.parts, part.marker = some field ∨
      ∃ repetition, entries.Contains (.repetition repetition) ∧ repetition.Adds part := by
  obtain ⟨parser, cursor, result, built, begun, yielded, parts⟩ := yields_entries
  exact ⟨parser, cursor, result, built, begun, yielded, by rw [parts]; rfl,
    parse_marked entries_marked built begun yielded⟩

/-- The glue lacks the marker that every rule has. -/
theorem glue_unmarked : ∃ parser cursor result part,
    (entries.Every fun kind options =>
      kind.isBuiltIn = true ∧ options.marker = some field) ∧
    entries.build = .ok parser ∧
    (Grammar.parse { parser, holder := .plain () } ['a', ',', 'a'] {}).Results cursor ∧
    cursor.Yields (.ok result) ∧ part ∈ result.parts ∧ part.marker ≠ some field := by
  obtain ⟨parser, cursor, result, built, begun, yielded, parts⟩ := yields_entries
  exact ⟨parser, cursor, result, ⟨[','], .input, none⟩, entries_marked, built, begun, yielded,
    by simp [parts], by decide⟩

end Grammar

end Typeahead
