import CompactShell.Shell.Quoting
import CompactShell.Text.Space

/-!
# Assignments in front of a command

A command may start with assignments to environment variables. Each is a name, an equals sign and
a value, with blanks behind it. A value ends at the first blank that is neither quoted nor escaped;
quotes that stay open, a backslash in front of a newline outside single quotes, and bare white
space that is no blank make it no assignment.

`splitAssignments` takes as many assignments off a command as there are. The two parts it answers
with always make up the command again.
-/

namespace CompactShell.Shell

open Text

/-- A character that may start the name of a variable. -/
def isNameStart (c : Char) : Bool :=
  c.isAlpha || c = '_'

/-- A character that the name of a variable may go on with. -/
def isNameChar (c : Char) : Bool :=
  c.isAlphanum || c = '_'

/-- The value that starts in the state `s` of the scan, and the text from the blank that ends it
on. -/
def assignedValue? (s : Scan) : List Char → Option (List Char × List Char)
  | [] => none
  | c :: rest =>
    -- a newline cannot be escaped, in double quotes as little as outside
    if s.escaped && c = '\n' then none
    else if s = .start && isSpace c then
      if isBlank c then some ([], c :: rest) else none
    else (assignedValue? (s.next c) rest).map fun (value, rest) => (c :: value, rest)

/-- The assignment that a text starts with, blanks behind it included, and what follows. -/
def assignment? (text : List Char) : Option (List Char × List Char) :=
  let name := text.takeWhile isNameChar
  match name.head?, text.dropWhile isNameChar with
  | some c, '=' :: rest =>
    if isNameStart c then
      (assignedValue? .start rest).map fun (value, rest) =>
        (name ++ '=' :: (value ++ rest.takeWhile isBlank), rest.dropWhile isBlank)
    else none
  | _, _ => none

theorem append_of_assignedValue? {s : Scan} {text value rest : List Char}
    (h : assignedValue? s text = some (value, rest)) : value ++ rest = text := by
  induction text generalizing s value with
  | nil => simp [assignedValue?] at h
  | cons c text ih =>
    rw [assignedValue?] at h
    split at h
    · cases h
    · split at h
      · split at h
        · cases h
          rfl
        · cases h
      · obtain ⟨⟨v, r⟩, hv, hr⟩ := Option.map_eq_some_iff.1 h
        cases hr
        rw [List.cons_append, ih hv]

theorem append_of_assignment? {text assignment rest : List Char}
    (h : assignment? text = some (assignment, rest)) : assignment ++ rest = text := by
  simp only [assignment?] at h
  split at h
  · next c tail _ htail =>
    split at h
    · obtain ⟨⟨v, r⟩, hv, hr⟩ := Option.map_eq_some_iff.1 h
      cases hr
      have hvr := append_of_assignedValue? hv
      have hname := List.takeWhile_append_dropWhile (p := isNameChar) (l := text)
      have hblank := List.takeWhile_append_dropWhile (p := isBlank) (l := r)
      rw [List.append_assoc, List.cons_append, List.append_assoc, hblank, hvr, ← htail, hname]
    · cases h
  · cases h

theorem ne_nil_of_assignment? {text assignment rest : List Char}
    (h : assignment? text = some (assignment, rest)) : assignment ≠ [] := by
  simp only [assignment?] at h
  split at h
  · split at h
    · obtain ⟨⟨v, r⟩, _, hr⟩ := Option.map_eq_some_iff.1 h
      cases hr
      simp
    · cases h
  · cases h

theorem length_lt_of_assignment? {text assignment rest : List Char}
    (h : assignment? text = some (assignment, rest)) : rest.length < text.length := by
  rw [← append_of_assignment? h, List.length_append]
  have := List.length_pos_iff.2 (ne_nil_of_assignment? h)
  omega

/-- All the assignments at the start of a command, and the command's body behind them. -/
def splitAssignments (command : List Char) : List Char × List Char :=
  match h : assignment? command with
  | none => ([], command)
  | some (assignment, rest) =>
    have := length_lt_of_assignment? h
    let (assignments, body) := splitAssignments rest
    (assignment ++ assignments, body)
termination_by command.length

/-- Nothing is lost between the assignments and the body. -/
theorem splitAssignments_append (command : List Char) :
    (splitAssignments command).1 ++ (splitAssignments command).2 = command := by
  fun_induction splitAssignments command with
  | case1 => rfl
  | case2 command assignment rest h _ assignments body hsplit ih =>
    rw [hsplit] at ih
    rw [List.append_assoc, ih, append_of_assignment? h]

end CompactShell.Shell
