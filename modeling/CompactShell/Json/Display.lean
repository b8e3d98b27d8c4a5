import CompactShell.Json.Writer
import CompactShell.Text.Quoted

/-!
# Values in a report

A report names a rule by the text that the log has for it. Where the log has another kind of value,
the report shows it in a form for people: a text alone as it is, texts inside other values in
quotes, the truth values and null capitalised.
-/

namespace CompactShell.Json

open Number Text

/-- How a report spells the numbers without digits. -/
def reportSpelling : Spelling := ⟨"nan", "inf"⟩

mutual

def displayInner : Value → List Char
  | .null => "None".toList
  | .bool true => "True".toList
  | .bool false => "False".toList
  | .int n => writeInt n
  | .real x => x.text reportSpelling
  | .str s => Quoted.display s.toList
  | .arr items => '[' :: displayItems items
  | .obj members => '\x7b' :: displayMembers members

/-- The items of an array, and its end. -/
def displayItems : List Value → List Char
  | [] => [']']
  | [item] => displayInner item ++ [']']
  | item :: items => displayInner item ++ ',' :: ' ' :: displayItems items

/-- The members of an object, and its end. -/
def displayMembers : List (String × Value) → List Char
  | [] => ['\x7d']
  | [(name, item)] => Quoted.display name.toList ++ ':' :: ' ' :: (displayInner item ++ ['\x7d'])
  | (name, item) :: members =>
    Quoted.display name.toList ++
      ':' :: ' ' :: (displayInner item ++ ',' :: ' ' :: displayMembers members)

end

def display : Value → List Char
  | .str s => s.toList
  | value => displayInner value

end CompactShell.Json
