namespace Typeahead

/-! Text is a sequence of characters, which lengths and cuts count.  Only the position of a
branch in its input counts bytes. -/

abbrev Text := List Char

namespace Text

def space : Text := [' ']

def toString (text : Text) : String := String.ofList text

def endsWithSpace (text : Text) : Bool := text.getLast? == some ' '

def startsWithSpace (text : Text) : Bool := text.head? == some ' '

end Text

end Typeahead
