import CompactShell.Shell.Quoting
import CompactShell.Text.Digit
import CompactShell.Text.Space

/-!
# Operators

The first operator of a command line ends its first simple command. Pipes, redirections, chains,
semicolons and substitutions count; a descriptor copy such as `2>&1` does not, nor does a lone
ampersand. `splitAtOperator` cuts a line in front of its first operator and keeps the operator and
all behind it as they are.
-/

namespace CompactShell.Shell

open Text

/-- A live character with the given successor begins an operator. -/
def isOperator (c : Char) (successor : Option Char) : Bool :=
  c = '|' || c = ';' || c = '\x60' || (c = '>' && successor != some '&') ||
    ((c = '<' || c = '$') && successor == some '(') || (c = '&' && successor == some '&')

/-- The position of the first operator when the scan has reached the state `s`. -/
def operatorFrom (s : Scan) : List Char → Option Nat
  | [] => none
  | c :: rest =>
    if s.isLive c && isOperator c rest.head? then some 0
    else (operatorFrom (s.next c) rest).map (· + 1)

def findOperator (command : List Char) : Option Nat :=
  operatorFrom .start command

def hasOperator (command : List Char) : Bool :=
  (findOperator command).isSome

/-- How many characters right in front of a `>` belong to the redirection: the digits of a
descriptor or the ampersand of `&>`, if they start a word. The text before the `>` comes in
reverse. -/
def redirectLead (before : List Char) : Nat :=
  let digits := before.takeWhile isDigit
  let lead :=
    if digits.isEmpty && before.head? == some '&' then 1 else digits.length
  match before.drop lead with
  | [] => lead
  | c :: _ => if isBlank c then lead else 0

/-- Where the first operator starts, with what belongs to it, given the position that
`findOperator` found. -/
def operatorStart (command : List Char) (position : Nat) : Nat :=
  match command[position]? with
  | some '>' => position - redirectLead (command.take position).reverse
  | _ => position

/-- The simple command in front of the first operator, and the rest of the line behind a single
space. The rest is empty if there is no operator. -/
def splitAtOperator (command : List Char) : List Char × List Char :=
  match findOperator command with
  | none => (command, [])
  | some position =>
    let start := operatorStart command position
    (trimEnd (command.take start), ' ' :: command.drop start)

end CompactShell.Shell
