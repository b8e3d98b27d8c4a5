import CompactShell.Json.Numeral
import CompactShell.Text.Choice

/-!
# Reading JSON

The grammar is that of RFC 8259 with three more numbers, `NaN`, `Infinity` and `-Infinity`. Only
space, tab, newline and carriage return are white space between the parts of a text.

A reader calls itself for each array and each object that it enters, and only so many calls may be
open at once: it is given the room that it has for them. An opening bracket without room for it ends
the reading, whatever stands behind it. A few other things take calls too, and end the reading where
there is no room for these: a fault that is reported, and a number that is written as a word.
-/

namespace CompactShell.Json

open Text

def isGap (c : Char) : Bool :=
  c = ' ' || c = '\t' || c = '\n' || c = '\r'

def skipGap (text : List Char) : List Char :=
  text.dropWhile isGap

/-- The values that are written by a word. -/
def namedValues : List (String × Value) :=
  [("null", .null), ("true", .bool true), ("false", .bool false), ("NaN", .real .nan),
    ("Infinity", .real (.infinite false)), ("-Infinity", .real (.infinite true))]

/-- How many more calls may be open at once. `none` is no limit. -/
abbrev Room := Option Nat

namespace Room

/-- The room that is left inside an array or an object, if one may be opened. -/
def inside? : Room → Option Room
  | none => some none
  | some 0 => none
  | some (n + 1) => some (some n)

/-- That many calls may be open at once. -/
def Holds (room : Room) (calls : Nat) : Prop :=
  room.all (fun n => decide (calls ≤ n)) = true

instance (room : Room) (calls : Nat) : Decidable (room.Holds calls) :=
  inferInstanceAs (Decidable (_ = true))

@[simp] theorem holds_none (calls : Nat) : Holds none calls := rfl

@[simp] theorem holds_some {n calls : Nat} : Holds (some n) calls ↔ calls ≤ n :=
  decide_eq_true_iff

end Room

/-- What is read with some calls in each other, if there is room for them. -/
def calling {α : Type} (room : Room) (calls : Nat) (result : Read α) : Read α :=
  if room.Holds calls then result else .error (.refused .noCall)

/-- How many calls it takes to make a value of a word. -/
def wordCalls : Value → Nat
  | .real _ => 1
  | _ => 0

/-- A value that is no string, array or object. -/
def scalar (room : Room) (text : List Char) : Read Value :=
  match namedValues.find? fun (name, _) => startsWith name text with
  | some (name, value) => calling room (wordCalls value) (.ok (value, text.drop name.length))
  | none =>
    let negative := text.head? == some '-'
    (unsignedNumber? negative (if negative then text.tail else text)).getD (malformed .noValue text)

/-- How many calls it takes to report a fault. -/
def reportCalls : Nat := 3

/-- What comes of a reading whose faults are reported from inside an array or an object. A value
that is missing is reported later, when none of them is open any more. -/
def reported {α : Type} (room : Room) (result : Read α) : Read α :=
  match result with
  | .error (.malformed .noValue _) => result
  | .error (.malformed _ _) => calling room reportCalls result
  | _ => result

/-- Reads what is inside an array or an object, if there is room for one. -/
def enter {α : Type} (room : Room) (nest : Nest) (inside : Room → Read α) : Read α :=
  match room.inside? with
  | none => .error (.refused (.tooDeep nest))
  | some room => reported room (inside room)

mutual

def value (room : Room) : Nat → List Char → Read Value
  | 0, text => malformed .noValue text
  | fuel + 1, text =>
    match text with
    | '"' :: rest => (string rest).map fun (s, rest) => (.str s, rest)
    | '[' :: rest =>
      enter room .array fun room =>
        match skipGap rest with
        | ']' :: rest => .ok (.arr [], rest)
        | rest => (items room fuel rest).map fun (items, rest) => (.arr items, rest)
    | '{' :: rest =>
      enter room .object fun room =>
        match skipGap rest with
        | '}' :: rest => .ok (.obj [], rest)
        | rest =>
          (pairs room fuel rest).map fun (pairs, rest) => (.obj (Members.ofList pairs), rest)
    | _ => scalar room text

/-- The items of an array up to its end. -/
def items (room : Room) : Nat → List Char → Read (List Value)
  | 0, text => malformed .noValue text
  | fuel + 1, text =>
    match value room fuel text with
    | .error fault => .error fault
    | .ok (item, rest) =>
      match skipGap rest with
      | ']' :: rest => .ok ([item], rest)
      | ',' :: rest =>
        (items room fuel (skipGap rest)).map fun (more, rest) => (item :: more, rest)
      | rest => malformed .noComma rest

/-- The names and values of an object up to its end. -/
def pairs (room : Room) : Nat → List Char → Read (List (String × Value))
  | 0, text => malformed .noName text
  | fuel + 1, text =>
    match text with
    | '"' :: rest =>
      match string rest with
      | .error fault => .error fault
      | .ok (name, rest) =>
        match skipGap rest with
        | ':' :: rest =>
          match value room fuel (skipGap rest) with
          | .error fault => .error fault
          | .ok (item, rest) =>
            match skipGap rest with
            | '}' :: rest => .ok ([(name, item)], rest)
            | ',' :: rest =>
              (pairs room fuel (skipGap rest)).map fun (more, rest) => ((name, item) :: more, rest)
            | rest => malformed .noComma rest
        | rest => malformed .noColon rest
    | _ => malformed .noName text

end

/-- More steps than reading a text can take. -/
def enoughFuel (text : List Char) : Nat :=
  2 * text.length + 2

/-- The value that a text writes, if there is room for the arrays and objects in it. A fault outside
of them is always reported. -/
def readWithin (room : Room) (text : List Char) : Except Fault Value :=
  match text with
  | '\uFEFF' :: _ => malformed .byteOrderMark text
  | _ =>
    match value room (enoughFuel text) (skipGap text) with
    | .error fault => .error fault
    | .ok (value, rest) =>
      match skipGap rest with
      | [] => .ok value
      | rest => malformed .extraText rest

/-- The value that a text writes, however deep it is. -/
def read (text : List Char) : Except Fault Value :=
  readWithin none text

end CompactShell.Json
