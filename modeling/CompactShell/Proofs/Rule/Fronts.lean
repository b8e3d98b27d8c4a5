import CompactShell.Proofs.Shell.Operators
import CompactShell.Rule.Table
import Mathlib.Data.List.TakeWhile

/-!
# What rules look at and what they put in its place

A rule decides by the words that a command starts with. They are words of plain characters, and
white space stands between them, so the front of a command that a phrase takes off means nothing to
the scan (`afterAny?_spec`). That no rule of the table has any other phrase, and that every text
put in place of one starts with the compact tool's name, is checked once for the whole table
(`table_isProper`).
-/

namespace CompactShell.Rule

open Shell Text

/-! ## Proper rules -/

/-- A fixed text of plain characters, all on one line. -/
def isOwn (text : String) : Bool :=
  text.toList.all fun c => isPlain c && c != '\n'

/-- A word that can start a command: a letter in front, and no special character. -/
def isProgram (word : String) : Bool :=
  isOwn word && (word.toList.head?.any Char.isAlpha)

/-- The phrase has words, and the first one can start a command. -/
def Phrase.isProper : Phrase → Bool
  | [] => false
  | word :: phrase => isProgram word && phrase.all isOwn

def Guard.isProper : Guard → Bool
  | .phrase phrases _ => phrases.all Phrase.isProper
  | .subcommand program _ _ => isProgram program.name
  | .lineCount => true

def Extent.isProper : Extent → Bool
  | .word extra => isOwn extra
  | _ => true

def Action.isProper : Action → Bool
  | .replace phrases _ extent text =>
    phrases.all Phrase.isProper && extent.isProper && startsWith "rtk " text.toList && isOwn text
  | _ => true

def isProper (rule : Rule) : Bool :=
  rule.guard.isProper && rule.action.isProper

/-- **The table has proper rules only.** -/
theorem table_isProper : ∀ rule ∈ table, rule.isProper = true := by
  decide +kernel

/-! ## Fronts -/

/-- What a phrase takes off a command: a front that means nothing to the scan and starts with a
letter. -/
structure IsFront (front : List Char) : Prop where
  plain : PlainText front
  head : ∃ c rest, front = c :: rest ∧ c.isAlpha = true

theorem isOwn_iff {text : String} :
    isOwn text = true ↔ PlainText text.toList ∧ '\n' ∉ text.toList := by
  simp only [isOwn, List.all_eq_true, Bool.and_eq_true, bne_iff_ne]
  constructor
  · exact fun h => ⟨fun c hc => (h c hc).1, fun hc => (h '\n' hc).2 rfl⟩
  · exact fun h c hc => ⟨h.1 c hc, fun he => h.2 (he ▸ hc)⟩

theorem plainText_of_isOwn {text : String} (h : isOwn text = true) : PlainText text.toList :=
  (isOwn_iff.1 h).1

theorem plainText_of_isSpace {white : List Char} (h : ∀ c ∈ white, isSpace c = true) :
    PlainText white :=
  fun c hc => isPlain_of_isSpace (h c hc)

/-- White space at the start of a text can be taken off it. -/
theorem exists_white (text : List Char) :
    ∃ white, text = white ++ trimStart text ∧ ∀ c ∈ white, isSpace c = true :=
  ⟨text.takeWhile isSpace, List.takeWhile_append_dropWhile.symm,
    fun _ hc => List.mem_takeWhile_imp hc⟩

/-- The words of a phrase and the white space between them are plain, and the first word comes
first. -/
theorem afterPhrase?_spec {phrase : Phrase} (hp : phrase.all isOwn = true) {text rest : List Char}
    (h : afterPhrase? phrase text = some rest) :
    ∃ front, text = front ++ rest ∧ PlainText front ∧
      ∀ word ∈ phrase.head?, word.toList <+: front := by
  induction phrase generalizing text with
  | nil => exact ⟨[], by simpa [afterPhrase?] using h, by simp [PlainText], by simp⟩
  | cons word phrase ih =>
    simp only [List.all_cons, Bool.and_eq_true] at hp
    have hword := plainText_of_isOwn hp.1
    cases phrase with
    | nil =>
      rw [afterPhrase?] at h
      exact ⟨word.toList, afterWord?_eq_some_iff.1 h, hword, by simp⟩
    | cons next phrase =>
      rw [afterPhrase?] at h
      · split at h
        · cases h
        · rename_i more hmore
          split at h
          · obtain ⟨front, hfront, hplain, -⟩ := ih hp.2 h
            obtain ⟨white, hwhite, hspace⟩ := exists_white more
            refine ⟨word.toList ++ (white ++ front), ?_,
              hword.append ((plainText_of_isSpace hspace).append hplain), by simp⟩
            rw [afterWord?_eq_some_iff.1 hmore, hwhite, hfront]; simp
          · cases h
      · simp

/-- **A phrase takes a front off the command.** -/
theorem afterAny?_spec {phrases : List Phrase} {stop : Stop} {text rest : List Char}
    (hp : phrases.all Phrase.isProper = true) (h : afterAny? phrases stop text = some rest) :
    ∃ front, text = front ++ rest ∧ IsFront front := by
  obtain ⟨phrase, hmem, hphrase⟩ := List.exists_of_findSome?_eq_some h
  obtain ⟨hafter, -⟩ := Option.filter_eq_some_iff.1 hphrase
  have hproper := List.all_eq_true.1 hp phrase hmem
  cases phrase with
  | nil => exact absurd hproper (by simp [Phrase.isProper])
  | cons word phrase =>
    simp only [Phrase.isProper, isProgram, Bool.and_eq_true] at hproper
    obtain ⟨⟨hword, halpha⟩, hphrase⟩ := hproper
    obtain ⟨front, htext, hplain, hfirst⟩ :=
      afterPhrase?_spec (by simp only [List.all_cons, hword, hphrase]; rfl) hafter
    obtain ⟨more, rfl⟩ := hfirst word rfl
    refine ⟨_, htext, hplain, ?_⟩
    cases hw : word.toList with
    | nil => rw [hw] at halpha; simp at halpha
    | cons c letters => rw [hw] at halpha; exact ⟨c, letters ++ more, rfl, by simpa using halpha⟩

/-- What is replaced along with a phrase is plain as well. -/
theorem Extent.trim_spec {extent : Extent} (he : extent.isProper = true) (text : List Char) :
    ∃ front, text = front ++ extent.trim text ∧ PlainText front := by
  cases extent with
  | phrase => exact ⟨[], rfl, by simp [PlainText]⟩
  | space =>
    obtain ⟨white, hwhite, hspace⟩ := exists_white text
    exact ⟨white, hwhite, plainText_of_isSpace hspace⟩
  | word extra =>
    rw [Extent.trim]
    split
    · cases hw : (afterWord? extra.toList (trimStart text)).filter Stop.edge.allows with
      | none => exact ⟨[], rfl, by simp [PlainText]⟩
      | some rest =>
        obtain ⟨hrest, -⟩ := Option.filter_eq_some_iff.1 hw
        obtain ⟨white, hwhite, hspace⟩ := exists_white text
        refine ⟨white ++ extra.toList, ?_,
          (plainText_of_isSpace hspace).append (plainText_of_isOwn he)⟩
        rw [List.append_assoc, Option.getD_some, ← afterWord?_eq_some_iff.1 hrest]
        exact hwhite
    · exact ⟨[], rfl, by simp [PlainText]⟩

/-! ## Guards -/

/-- The option in front of the count of lines. -/
theorem exists_countOption (option : List Char) :
    ∃ lead digits, option.drop (if startsWith "--lines=" option then 8
        else if startsWith "-" option then 1 else 0) = digits ∧
      option = lead ++ digits ∧ PlainText lead ∧ '#' ∉ lead := by
  split
  · rename_i h
    obtain ⟨rest, rfl⟩ := startsWith_iff.1 h
    exact ⟨"--lines=".toList, rest, by simp, rfl, plainText_of_isOwn (by decide), by decide⟩
  · split
    · rename_i h
      obtain ⟨rest, rfl⟩ := startsWith_iff.1 h
      exact ⟨"-".toList, rest, by simp, rfl, plainText_of_isOwn (by decide), by decide⟩
    · exact ⟨[], option, rfl, rfl, by simp [PlainText], List.not_mem_nil⟩

/-- The count of lines and all in front of it mean nothing to the scan and start no comment, and
white space follows. There is a count. -/
theorem headCount?_spec {command count rest : List Char}
    (h : Search.headCount? command = some (count, rest)) :
    ∃ front, command = front ++ rest ∧ IsFront front ∧ (∀ c ∈ count, isDecimal c = true) ∧
      startsWithSpace rest = true ∧ '#' ∉ front ∧ count ≠ [] ∧ count <:+ front := by
  simp only [Search.headCount?, Option.ite_none_right_eq_some, Option.some.injEq, Prod.mk.injEq,
    Bool.and_eq_true, Bool.not_eq_true', List.isEmpty_eq_false_iff, startsWith_iff] at h
  obtain ⟨⟨⟨behind, rfl⟩, -⟩, ⟨⟨-, hne⟩, hspace⟩, rfl, rfl⟩ := h
  have hdrop : ("head".toList ++ behind).drop 4 = behind := by simp
  obtain ⟨white, hwhite, hws⟩ := exists_white behind
  obtain ⟨lead, digits, hdigits, hlead, hplain, hsign⟩ := exists_countOption (trimStart behind)
  rw [hdrop, hdigits] at hne hspace ⊢
  refine ⟨"head".toList ++ (white ++ (lead ++ digits.takeWhile isDecimal)), ?_, ⟨?_, ?_⟩,
    fun c hc => List.mem_takeWhile_imp hc, hspace, ?_, hne, ?_⟩
  · rw [List.append_assoc, List.append_assoc, List.append_assoc,
      List.takeWhile_append_dropWhile, ← hlead, ← hwhite]
  · exact (plainText_of_isOwn (by decide)).append ((plainText_of_isSpace hws).append
      (hplain.append fun c hc => isPlain_of_isDecimal (List.mem_takeWhile_imp hc)))
  · exact ⟨'h', _, rfl, by decide⟩
  · rw [List.mem_append, List.mem_append, List.mem_append]
    rintro (h | h | h | h)
    · exact absurd h (by decide)
    · exact absurd (hws _ h) (by decide)
    · exact hsign h
    · exact absurd (List.mem_takeWhile_imp h) (by decide)
  · exact ⟨"head".toList ++ (white ++ lead), by rw [List.append_assoc, List.append_assoc]⟩

/-- **What a guard accepts starts with a letter.** -/
theorem Guard.exists_head_of_accepts {guard : Guard} (hg : guard.isProper = true)
    {body : List Char} (h : guard.accepts body = true) :
    ∃ c rest, body = c :: rest ∧ c.isAlpha = true := by
  have hfront : ∃ front rest, body = front ++ rest ∧ IsFront front := by
    cases guard with
    | phrase phrases stop =>
      obtain ⟨rest, hrest⟩ := Option.isSome_iff_exists.1 h
      obtain ⟨front, hbody, hf⟩ := afterAny?_spec hg hrest
      exact ⟨front, rest, hbody, hf⟩
    | subcommand program allowed except =>
      simp only [Guard.accepts, Bool.and_eq_true] at h
      obtain ⟨rest, hrest⟩ := Option.isSome_iff_exists.1 h.1.1
      have hp : [[program.name]].all Phrase.isProper = true := by
        simpa [Phrase.isProper, Guard.isProper] using hg
      obtain ⟨front, hbody, hf⟩ := afterAny?_spec hp hrest
      exact ⟨front, rest, hbody, hf⟩
    | lineCount =>
      obtain ⟨⟨count, rest⟩, hrest⟩ := Option.isSome_iff_exists.1 h
      obtain ⟨front, hbody, hf, -⟩ := headCount?_spec hrest
      exact ⟨front, rest, hbody, hf⟩
  obtain ⟨front, rest, rfl, -, c, more, rfl, hc⟩ := hfront
  exact ⟨c, more ++ rest, rfl, hc⟩

end CompactShell.Rule
