import CompactShell.Text.Space

/-!
# Phrases

A phrase is the words that a command starts with. White space of any kind and length stands
between two words of a phrase; what stands right behind the last one is the business of a `Stop`.
-/

namespace CompactShell.Rule

open Text

/-- The words that a command starts with. -/
abbrev Phrase := List String

/-- What has to stand right behind a phrase. -/
inductive Stop where
  /-- Anything, even the rest of a longer word. -/
  | anywhere
  /-- White space or the end of the command. -/
  | edge
  /-- White space. -/
  | space
  deriving DecidableEq, Repr

/-- The rest of a command may stand right behind a phrase. -/
def Stop.allows : Stop → List Char → Bool
  | .anywhere, _ => true
  | .edge, rest => rest.isEmpty || startsWithSpace rest
  | .space, rest => startsWithSpace rest

/-- What follows a word that the text starts with. -/
def afterWord? : List Char → List Char → Option (List Char)
  | [], text => some text
  | _ :: _, [] => none
  | w :: word, c :: text => if w = c then afterWord? word text else none

/-- What follows a phrase that the text starts with. -/
def afterPhrase? : Phrase → List Char → Option (List Char)
  | [], text => some text
  | [word], text => afterWord? word.toList text
  | word :: phrase, text =>
    match afterWord? word.toList text with
    | none => none
    | some rest =>
      if startsWithSpace rest then afterPhrase? phrase (trimStart rest) else none

/-- What follows the first of several phrases that the text starts with and stops behind. -/
def afterAny? (phrases : List Phrase) (stop : Stop) (text : List Char) : Option (List Char) :=
  phrases.findSome? fun phrase => (afterPhrase? phrase text).filter stop.allows

theorem afterWord?_eq_some_iff {word text rest : List Char} :
    afterWord? word text = some rest ↔ text = word ++ rest := by
  induction word generalizing text with
  | nil => simp [afterWord?]
  | cons w word ih =>
    cases text with
    | nil => simp [afterWord?]
    | cons c text =>
      by_cases h : w = c
      · simp [afterWord?, h, ih]
      · simp [afterWord?, h, Ne.symm h]

end CompactShell.Rule
