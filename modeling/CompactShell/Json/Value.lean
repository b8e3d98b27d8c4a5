import CompactShell.Number.Binary64

/-!
# JSON values

Configurations, hook events and log entries are JSON. Whole numbers and numbers with a fraction or
an exponent are kept apart, and the members of an object keep the order in which their names first
came. A name that comes again only changes the value.
-/

namespace CompactShell.Json

open Number

inductive Value where
  | null
  | bool (value : Bool)
  | int (value : Int)
  | real (value : Binary64)
  | str (value : String)
  | arr (items : List Value)
  | obj (members : List (String × Value))
  deriving Inhabited

/-- The members of an object, in order. -/
abbrev Members := List (String × Value)

namespace Members

def get? (members : Members) (name : String) : Option Value :=
  match members with
  | [] => none
  | (other, value) :: rest => if other = name then some value else get? rest name

/-- The members with a new value for one of them. A new member goes last. -/
def put (name : String) (value : Value) : Members → Members
  | [] => [(name, value)]
  | (other, old) :: rest =>
    if other = name then (other, value) :: rest else (other, old) :: put name value rest

def ofList (pairs : List (String × Value)) : Members :=
  pairs.foldl (fun members (name, value) => put name value members) []

@[simp] theorem get?_put_self (name : String) (value : Value) (members : Members) :
    get? (put name value members) name = some value := by
  induction members with
  | nil => simp [put, get?]
  | cons pair rest ih =>
    by_cases h : pair.1 = name <;> simp [put, get?, h, ih]

end Members

/-- The value counts as no value where a text is wanted: it is empty, zero, false or null. -/
def Value.isVoid : Value → Bool
  | .null => true
  | .bool value => !value
  | .int value => value == 0
  | .real value => value.isZero
  | .str value => value.isEmpty
  | .arr items => items.isEmpty
  | .obj members => members.isEmpty

end CompactShell.Json
