import Typeahead.Branch.FixedText
import Typeahead.Decimal.Integer
import Typeahead.Parser
import Typeahead.Text.Numeral

namespace Typeahead

/-! Numbers within bounds.

A number takes the longest numeral that opens the input, or nothing.  One that
offers all its numbers treats every integer between its bounds as fixed text. -/

structure Number where
  min : Option Float := none
  max : Option Float := none
  refuseNegative : Bool := false
  integersOnly : Bool := false
  /-- Offer every integer between the bounds while digits are being typed. -/
  offersAll : Bool := false

namespace Number

variable {H : Host}

def accepts (number : Number) (value : Float) : Bool :=
  !(number.refuseNegative && value < 0.0) &&
    number.min.all (· ≤ value) && number.max.all (value ≤ ·)

/-- Takes a numeral whose value is accepted; a refused one is not shortened. -/
def readStep (number : Number) (settings : Settings H) : Step H := fun branch =>
  match Text.Numeral.leading? number.integersOnly branch.input with
  | none => return .empty
  | some numeral =>
      if number.accepts numeral.value then
        settings.yieldExtended
          (branch.add { content := numeral.text, kind := .input, marker := settings.marker })
          (some (.number numeral.value))
      else return .empty

/-- The least and the greatest integer between two bounds, given in any order, as
far as 64 bits hold them. -/
def integersBetween (bound other : Float) : Int × Int :=
  let (low, high) := if bound ≤ other then (bound, other) else (other, bound)
  (Decimal.integerAbove low, Decimal.integerBelow high)

/-- Whether the text of an integer and the input agree as far as both go. -/
def fits (input : Text) (candidate : Int) : Bool :=
  (Text.overlap? false input (Text.ofInt candidate)).isSome

/-- The first of `count` integers from `candidate` on that fits the input, after
the number of integers behind it. -/
def firstFit? (input : Text) : Nat → Int → Option (Nat × Int)
  | 0, _ => none
  | count + 1, candidate =>
      if fits input candidate then some (count, candidate)
      else firstFit? input count (candidate + 1)

theorem firstFit?_lt {input : Text} {count behind : Nat} {candidate fit : Int}
    (found : firstFit? input count candidate = some (behind, fit)) : behind < count := by
  induction count generalizing candidate with
  | zero => simp [firstFit?] at found
  | succ count ih =>
      simp only [firstFit?] at found
      split at found
      · cases found
        omega
      · have := ih found
        omega

/-- A copy of the branch with the text of one integer, which is emitted if it was
typed in full. -/
def offer (settings : Settings H) (branch : Branch H) (candidate : Int) :
    Action H (Run H (Item H)) :=
  match Text.overlap? false branch.input (Text.ofInt candidate) with
  | none => return .empty
  | some overlap => do
      settings.yieldExtended ((← branch.fork).addOverlap settings.marker overlap)
        (if overlap.isFull then some (.number (Decimal.ofInt candidate)) else none)

/-- Offers those of `count` integers from `candidate` on that fit the input. -/
def offersFrom (settings : Settings H) (branch : Branch H) (count : Nat) (candidate : Int) :
    Run H (Item H) :=
  .delayed fun _ =>
    match found : firstFit? branch.input count candidate with
    | none => .empty
    | some (behind, fit) =>
        have : behind < count := firstFit?_lt found
        .defer do
          return (← offer settings branch fit).append
            (offersFrom settings branch behind (fit + 1))
termination_by count

def offerStep (number : Number) (settings : Settings H) : Step H := fun branch =>
  match number.min, number.max with
  | some bound, some other =>
      let (first, last) := integersBetween bound other
      return offersFrom settings branch (last - first + 1).toNat first
  | _, _ => return .empty

def check (number : Number) : Except Error Unit :=
  if !number.offersAll then .ok ()
  else if !number.integersOnly then .error .suggestionsRequireInteger
  else if number.min.isNone || number.max.isNone then .error .suggestionsRequireBounds
  else .ok ()

def matcher (number : Number) : Matcher H where
  name := "number"
  check _ := number.check
  step settings :=
    if number.offersAll then number.offerStep settings else number.readStep settings

end Number

end Typeahead
