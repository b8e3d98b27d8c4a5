/-!
# Quoting

How a shell reads the quotes of a command, one character at a time. A backslash escapes the next
character everywhere but inside single quotes; a quote of one kind is an ordinary character inside
quotes of the other. Nothing is refused: quotes may stay open to the end, and a backslash at the
end escapes nothing.

`Scan` goes through a command character by character. The reader of words is a scanner of its own
that takes an escape and what it escapes in one step; that the two agree on what is quoted is a
theorem (`wordsFrom_eq_flush`).
-/

namespace CompactShell.Shell

/-- The quotes around a place in a command. -/
inductive Quoting where
  | bare
  | single
  | double
  deriving DecidableEq, Repr

/-- What is known between two characters of a command. -/
structure Scan where
  /-- The quotes that are open here. -/
  quoting : Quoting
  escaped : Bool
  deriving DecidableEq, Repr

namespace Scan

/-- Where every command starts: no quote is open and nothing is escaped. -/
def start : Scan := ⟨.bare, false⟩

/-- The character opens or closes quotes here. -/
def isToggle (s : Scan) (c : Char) : Bool :=
  !s.escaped && ((c = '\'' && s.quoting != .double) || (c = '"' && s.quoting != .single))

/-- The character is a backslash that escapes the next one. -/
def isEscape (s : Scan) (c : Char) : Bool :=
  !s.escaped && c = '\\' && s.quoting != .single

/-- The quotes that are open once `c` has opened or closed its own. -/
def toggle (s : Scan) (c : Char) : Quoting :=
  if s.quoting != .bare then .bare else if c = '\'' then .single else .double

/-- What is known after one more character. -/
def next (s : Scan) (c : Char) : Scan :=
  if s.isEscape c then ⟨s.quoting, true⟩
  else if s.isToggle c then ⟨s.toggle c, false⟩
  else ⟨s.quoting, false⟩

/-- What is known after a text. -/
def after (s : Scan) (text : List Char) : Scan :=
  text.foldl next s

/-- The character stands outside quotes, is not escaped, and is itself no quote or escape. -/
def isLive (s : Scan) (c : Char) : Bool :=
  !s.escaped && s.quoting == .bare && c != '\\' && c != '\'' && c != '"'

@[simp] theorem after_nil (s : Scan) : s.after [] = s := rfl

@[simp] theorem after_cons (s : Scan) (c : Char) (text : List Char) :
    s.after (c :: text) = (s.next c).after text := rfl

@[simp] theorem after_append (s : Scan) (a b : List Char) :
    s.after (a ++ b) = (s.after a).after b := by
  simp [after]

/-- A live character leaves no trace in what is known after it. -/
theorem next_of_isLive {s : Scan} {c : Char} (h : s.isLive c = true) : s.next c = .start := by
  obtain ⟨q, e⟩ := s
  simp only [isLive, Bool.and_eq_true, Bool.not_eq_true', beq_iff_eq, bne_iff_ne] at h
  obtain ⟨⟨⟨⟨rfl, rfl⟩, hb⟩, hs⟩, hd⟩ := h
  simp [next, isEscape, isToggle, hb, hs, hd, start]

end Scan

/-- Every quote of the text is closed at its end. -/
def isClosed (text : List Char) : Bool :=
  (Scan.start.after text).quoting == .bare

end CompactShell.Shell
