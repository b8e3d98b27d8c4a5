import CompactShell.Log.Finder
import CompactShell.Text.Choice
import CompactShell.Text.Letter
import CompactShell.Text.Space

/-!
# Redaction

A log must not repeat secrets. Five kinds of text that look like one are looked for, one kind after
the other: assignments to names that speak of secrets, authorization headers with and without
quotes, user names and passwords in a URL, and access tokens known by their first letters. What is
secret in them is replaced by a mark.
-/

namespace CompactShell.Log

open Text

/-- What is logged for a secret. -/
def mark : List Char := "<redacted>".toList

/-- The lower case of a letter that case does not tell apart from an ASCII one, other characters as
they are. The long s, the Kelvin sign and the dotted and dotless i count as ASCII letters here. -/
def fold (c : Char) : Char :=
  if c = '\u0130' || c = '\u0131' then 'i'
  else if c = '\u017F' then 's'
  else if c = '\u212A' then 'k'
  else c.toLower

/-- The start of a text that reads as `word` whatever its case, and the rest. -/
def splitFolded? : List Char → List Char → Option (List Char × List Char)
  | [], text => some ([], text)
  | _ :: _, [] => none
  | w :: word, c :: text =>
    if fold c = w then (splitFolded? word text).map fun (taken, rest) => (c :: taken, rest)
    else none

/-- The character in front of a place belongs to a word. -/
def insideWord (before : Option Char) : Bool :=
  before.any isWordChar

/-- A character of a variable's name, whatever its case. -/
def isKeyChar (c : Char) : Bool :=
  (fold c).isAlphanum || c = '_'

/-- Words that a name of something secret has in it. -/
def keywords : List String :=
  ["token", "secret", "password", "pass", "key", "credentials"]

def isQuote (c : Char) : Bool :=
  c = '\'' || c = '"'

/-- An assignment to a name that speaks of a secret. The name starts where a word does; all up to
the next white space is its value. -/
def assignedSecret : Finder := fun before text =>
  if insideWord before then none
  else
    let name := text.takeWhile isKeyChar
    match text.dropWhile isKeyChar with
    | '=' :: rest =>
      let value := rest.takeWhile (!isSpace ·)
      if keywords.any (holds · (name.map fold)) && !value.isEmpty then
        some ⟨name ++ '=' :: mark, name.length + 1 + value.length⟩
      else none
    | _ => none

/-- The name of an authorization header with its colon, and what follows it. -/
def headerName? (text : List Char) : Option (List Char × List Char) :=
  (splitFolded? "authorization".toList text).bind fun (name, rest) =>
    match rest.dropWhile isSpace with
    | ':' :: after => some (name ++ rest.takeWhile isSpace ++ [':'], after)
    | _ => none

/-- An authorization header inside quotes. Its value goes up to the next quote; if nothing but white
space stands in front of that, the last of it is the value. -/
def quotedHeader : Finder := fun _ text =>
  match text with
  | [] => none
  | quote :: inner =>
    if !isQuote quote then none
    else
      (headerName? (inner.dropWhile isSpace)).bind fun (name, after) =>
        let gap := after.takeWhile isSpace
        let rest := after.dropWhile isSpace
        let value := rest.takeWhile (!isQuote ·)
        let lead (gap : List Char) := quote :: inner.takeWhile isSpace ++ name ++ gap
        match rest.dropWhile (!isQuote ·) with
        | [] => none
        -- without a closing quote this is no header inside quotes
        | closing :: _ =>
          if !value.isEmpty then
            some ⟨lead gap ++ mark ++ [closing], (lead gap).length + value.length + 1⟩
          else if !gap.isEmpty then
            some ⟨lead gap.dropLast ++ mark ++ [closing], (lead gap).length + 1⟩
          else none

/-- An authorization header anywhere. Its value goes up to the next white space or quote. -/
def bareHeader : Finder := fun _ text =>
  (headerName? text).bind fun (name, after) =>
    let lead := name ++ after.takeWhile isSpace
    let value := (after.dropWhile isSpace).takeWhile fun c => !isSpace c && !isQuote c
    if value.isEmpty then none else some ⟨lead ++ mark, lead.length + value.length⟩

def webScheme? (text : List Char) : Option (List Char × List Char) :=
  splitFolded? "https://".toList text <|> splitFolded? "http://".toList text

/-- The user name and password of a web address. -/
def urlCredentials : Finder := fun _ text =>
  (webScheme? text).bind fun (scheme, rest) =>
    let user := rest.takeWhile fun c => !isSpace c && c != '/' && c != ':' && c != '@'
    match rest.drop user.length with
    | ':' :: rest =>
      let password := rest.takeWhile fun c => !isSpace c && c != '@'
      -- only an at sign behind both makes them credentials
      if (rest.drop password.length).head? == some '@' && !user.isEmpty && !password.isEmpty then
        some ⟨scheme ++ mark ++ ':' :: mark ++ ['@'],
          scheme.length + user.length + password.length + 2⟩
      else none
    | _ => none

/-- An access token: `gh`, a letter for its kind, an underscore and twenty or more letters and
digits, standing as a word. -/
def accessToken : Finder := fun before text =>
  match text with
  | 'g' :: 'h' :: kind :: '_' :: rest =>
    let body := rest.takeWhile Char.isAlphanum
    let next := (rest.drop body.length).head?
    if !insideWord before && ['p', 'o', 'u', 's', 'r'].contains kind && 20 ≤ body.length &&
        !insideWord next then
      some ⟨mark, body.length + 4⟩
    else none
  | _ => none

/-- The kinds of secrets, in the order in which they are looked for. -/
def finders : List Finder :=
  [assignedSecret, quotedHeader, bareHeader, urlCredentials, accessToken]

def redact (text : List Char) : List Char :=
  finders.foldl (fun text find => replaceAll find text) text

end CompactShell.Log
