import CompactShell.Rule.Table
import Mathlib.Data.List.TakeWhile

/-!
# No two rules are about the same command

A guard accepts a command by the words that it starts with, and every phrase of the table is behind
white space or the end of the command there. So a command that starts with a phrase has the words of
the phrase for its own first words (`wordAt_of_startsWithPhrase`), and two phrases with different
words at one place never start the same command.

The phrases of any two rules differ in that way, or the one rule makes an exception of the other's
phrase. That is checked for the table once (`table_isApart`). So at most one rule of the table is
about any command (`length_accepting_le_one`), and the order of the rules says nothing.
-/

namespace CompactShell.Rule

open Shell Text

/-! ## The words that a command starts with -/

/-- The word with the given number, where white space stands between words. -/
def wordAt : Nat → List Char → List Char
  | 0, text => text.takeWhile (!isSpace ·)
  | n + 1, text => wordAt n (trimStart (text.dropWhile (!isSpace ·)))

/-- The text starts with the phrase, and no longer word is cut. -/
def startsWithPhrase (phrase : Phrase) (text : List Char) : Bool :=
  ((afterPhrase? phrase text).filter Stop.edge.allows).isSome

/-- A word without white space. -/
def isSolid (word : String) : Bool :=
  word.toList.all (!isSpace ·)

/-- A word ends where white space or nothing follows. -/
theorem takeWhile_word {word rest : List Char} (hw : word.all (!isSpace ·) = true)
    (hr : Stop.edge.allows rest = true) :
    (word ++ rest).takeWhile (!isSpace ·) = word ∧
      (word ++ rest).dropWhile (!isSpace ·) = rest := by
  have hword : ∀ c ∈ word, (!isSpace c) = true := List.all_eq_true.1 hw
  rw [List.takeWhile_append_of_pos hword, List.dropWhile_append_of_pos hword]
  cases rest with
  | nil => simp
  | cons c rest =>
    have hc : isSpace c = true := by simpa [Stop.allows, startsWithSpace] using hr
    simp [hc]

/-- The first word of a phrase is all of a word of the text, and the other words follow. -/
theorem exists_first_of_afterPhrase? {first : String} {phrase : Phrase} {text rest : List Char}
    (h : afterPhrase? (first :: phrase) text = some rest) (hr : Stop.edge.allows rest = true) :
    ∃ more, text = first.toList ++ more ∧ Stop.edge.allows more = true ∧
      (phrase ≠ [] → afterPhrase? phrase (trimStart more) = some rest) := by
  cases phrase with
  | nil =>
    rw [afterPhrase?] at h
    exact ⟨rest, afterWord?_eq_some_iff.1 h, hr, fun hne => absurd rfl hne⟩
  | cons next phrase =>
    rw [afterPhrase?] at h
    · split at h
      · cases h
      · rename_i more hmore
        split at h
        · rename_i hspace
          have hallows : Stop.edge.allows more = true := by
            rw [Stop.allows, hspace, Bool.or_true]
          exact ⟨more, afterWord?_eq_some_iff.1 hmore, hallows, fun _ => h⟩
        · cases h
    · simp

theorem wordAt_of_afterPhrase? {phrase : Phrase} (hp : phrase.all isSolid = true)
    {text rest : List Char} (h : afterPhrase? phrase text = some rest)
    (hr : Stop.edge.allows rest = true) {i : Nat} {word : String} (hi : phrase[i]? = some word) :
    wordAt i text = word.toList := by
  induction phrase generalizing text i with
  | nil => cases hi
  | cons first phrase ih =>
    rw [List.all_cons, Bool.and_eq_true] at hp
    obtain ⟨more, rfl, hmore, hrest⟩ := exists_first_of_afterPhrase? h hr
    obtain ⟨htake, hdrop⟩ := takeWhile_word hp.1 hmore
    cases i with
    | zero =>
      obtain rfl : first = word := Option.some.inj hi
      exact htake
    | succ i =>
      have hi' : phrase[i]? = some word := hi
      have hne : phrase ≠ [] := by
        rintro rfl
        cases hi'
      rw [wordAt, hdrop]
      exact ih hp.2 (hrest hne) hi'

/-- **The words of the phrase are the first words of the command.** -/
theorem wordAt_of_startsWithPhrase {phrase : Phrase} (hp : phrase.all isSolid = true)
    {text : List Char} (h : startsWithPhrase phrase text = true) {i : Nat} {word : String}
    (hi : phrase[i]? = some word) : wordAt i text = word.toList := by
  obtain ⟨rest, hrest⟩ := Option.isSome_iff_exists.1 h
  obtain ⟨hafter, hedge⟩ := Option.filter_eq_some_iff.1 hrest
  exact wordAt_of_afterPhrase? hp hafter hedge hi

/-- The phrases have different words at some place. -/
def Phrase.differs (p q : Phrase) : Bool :=
  (p.zip q).any fun words => words.1 != words.2

/-- No command starts with both of two phrases that differ. -/
theorem Phrase.not_both_of_differs {p q : Phrase} (hd : p.differs q = true)
    (hp : p.all isSolid = true) (hq : q.all isSolid = true) {text : List Char}
    (hpt : startsWithPhrase p text = true) : startsWithPhrase q text = false := by
  rw [Bool.eq_false_iff]
  intro hqt
  obtain ⟨⟨a, b⟩, hmem, hne⟩ := List.any_eq_true.1 hd
  obtain ⟨i, hi⟩ := List.getElem?_of_mem hmem
  obtain ⟨ha, hb⟩ := List.getElem?_zip_eq_some.1 hi
  have hsame := (wordAt_of_startsWithPhrase hp hpt ha).symm.trans
    (wordAt_of_startsWithPhrase hq hqt hb)
  rw [bne_iff_ne] at hne
  exact hne (String.toList_injective hsame)

/-! ## What guards look for -/

namespace Guard

/-- The phrases that a command may start with to be accepted. -/
def phrases : Guard → List Phrase
  | .phrase phrases _ => phrases
  | .subcommand program _ _ => [[program.name]]
  | .lineCount => [["head"]]

/-- The phrases that a command must not start with to be accepted. -/
def exceptions : Guard → List Phrase
  | .subcommand _ _ except => except
  | _ => []

/-- A phrase has to be followed by white space or nothing. -/
def stops : Guard → Bool
  | .phrase _ stop => stop != .anywhere
  | _ => true

/-- The phrases are words without white space, and no longer word is cut. -/
def isSolid (guard : Guard) : Bool :=
  guard.phrases.all (fun phrase => phrase.all Rule.isSolid) && guard.stops

theorem edge_of_allows {stop : Stop} (hs : stop ≠ .anywhere) {rest : List Char}
    (h : stop.allows rest = true) : Stop.edge.allows rest = true := by
  cases stop with
  | anywhere => exact absurd rfl hs
  | edge => exact h
  | space =>
    have hspace : startsWithSpace rest = true := h
    rw [Stop.allows, hspace, Bool.or_true]

theorem exists_of_afterAny? {phrases : List Phrase} {stop : Stop} (hs : stop ≠ .anywhere)
    {text : List Char} (h : (afterAny? phrases stop text).isSome = true) :
    ∃ phrase ∈ phrases, startsWithPhrase phrase text = true := by
  obtain ⟨rest, hrest⟩ := Option.isSome_iff_exists.1 h
  obtain ⟨phrase, hmem, hphrase⟩ := List.exists_of_findSome?_eq_some hrest
  obtain ⟨hafter, hallows⟩ := Option.filter_eq_some_iff.1 hphrase
  refine ⟨phrase, hmem, ?_⟩
  rw [startsWithPhrase, hafter, Option.filter_some, if_pos (edge_of_allows hs hallows)]
  rfl

/-- **What is accepted starts with one of the guard's phrases.** -/
theorem exists_phrase_of_accepts {guard : Guard} (hg : guard.isSolid = true) {body : List Char}
    (h : guard.accepts body = true) :
    ∃ phrase ∈ guard.phrases, startsWithPhrase phrase body = true := by
  rw [isSolid, Bool.and_eq_true] at hg
  cases guard with
  | phrase phrases stop => exact exists_of_afterAny? (bne_iff_ne.1 hg.2) h
  | subcommand program allowed except =>
    simp only [accepts, Bool.and_eq_true] at h
    exact exists_of_afterAny? (by decide) h.1.1
  | lineCount =>
    obtain ⟨⟨count, rest⟩, hcount⟩ := Option.isSome_iff_exists.1 h
    simp only [Search.headCount?, Option.ite_none_right_eq_some, Bool.and_eq_true,
      startsWith_iff] at hcount
    obtain ⟨⟨⟨behind, rfl⟩, hspace⟩, -⟩ := hcount
    refine ⟨["head"], List.mem_singleton_self _, ?_⟩
    have hdrop : ("head".toList ++ behind).drop 4 = behind := by simp
    rw [hdrop] at hspace
    have hedge : Stop.edge.allows behind = true := by rw [Stop.allows, hspace, Bool.or_true]
    rw [startsWithPhrase, afterPhrase?, afterWord?_eq_some_iff.2 rfl, Option.filter_some,
      if_pos hedge]
    rfl

/-- What is accepted starts with none of the guard's exceptions. -/
theorem not_exception_of_accepts {guard : Guard} {body : List Char}
    (h : guard.accepts body = true) {phrase : Phrase} (hp : phrase ∈ guard.exceptions) :
    startsWithPhrase phrase body = false := by
  cases guard with
  | phrase => cases hp
  | lineCount => cases hp
  | subcommand program allowed except =>
    simp only [accepts, Bool.and_eq_true, Option.isNone_iff_eq_none] at h
    have hnone := List.findSome?_eq_none_iff.1 h.1.2 phrase hp
    rw [startsWithPhrase, hnone]
    rfl

/-- The guards have nothing in common: their phrases differ, or the one makes an exception of the
other's. -/
def isApart (g h : Guard) : Bool :=
  g.phrases.all fun p => h.phrases.all fun q =>
    p.differs q || g.exceptions.contains q || h.exceptions.contains p

/-- **Guards with nothing in common do not accept the same command.** -/
theorem not_both_of_isApart {g h : Guard} (ha : g.isApart h = true) (hg : g.isSolid = true)
    (hh : h.isSolid = true) {body : List Char} (hgb : g.accepts body = true) :
    h.accepts body = false := by
  rw [Bool.eq_false_iff]
  intro hhb
  obtain ⟨p, hp, hpb⟩ := exists_phrase_of_accepts hg hgb
  obtain ⟨q, hq, hqb⟩ := exists_phrase_of_accepts hh hhb
  have hpq := List.all_eq_true.1 (List.all_eq_true.1 ha p hp) q hq
  simp only [Bool.or_eq_true, List.contains_iff_mem] at hpq
  rw [isSolid, Bool.and_eq_true] at hg hh
  rcases hpq with (hd | hexcept) | hexcept
  · have hno := Phrase.not_both_of_differs hd (List.all_eq_true.1 hg.1 p hp)
      (List.all_eq_true.1 hh.1 q hq) hpb
    rw [hno] at hqb
    cases hqb
  · rw [not_exception_of_accepts hgb hexcept] at hqb
    cases hqb
  · rw [not_exception_of_accepts hhb hexcept] at hpb
    cases hpb

end Guard

/-! ## The table -/

theorem table_isSolid : ∀ rule ∈ table, rule.guard.isSolid = true := by
  decide +kernel

/-- **Any two rules of the table have nothing in common.** -/
theorem table_isApart : table.Pairwise fun a b => a.guard.isApart b.guard = true := by
  decide +kernel

/-- **At most one rule of the table is about a command.** -/
theorem length_accepting_le_one (body : List Char) :
    (table.filter fun rule => rule.guard.accepts body).length ≤ 1 := by
  have hapart := table_isApart.sublist
    (List.filter_sublist (p := fun rule : Rule => rule.guard.accepts body))
  have hmem : ∀ rule ∈ table.filter fun rule => rule.guard.accepts body,
      rule ∈ table ∧ rule.guard.accepts body = true := fun rule hrule => List.mem_filter.1 hrule
  cases hrules : table.filter fun rule => rule.guard.accepts body with
  | nil => simp
  | cons a rest =>
    cases rest with
    | nil => simp
    | cons b rest =>
      -- two of them would both accept the command
      rw [hrules] at hapart hmem
      have hab : a.guard.isApart b.guard = true :=
        (List.pairwise_cons.1 hapart).1 b (List.mem_cons_self ..)
      obtain ⟨hatable, ha⟩ := hmem a (List.mem_cons_self ..)
      obtain ⟨hbtable, hb⟩ := hmem b (List.mem_cons_of_mem _ (List.mem_cons_self ..))
      have hno := Guard.not_both_of_isApart hab (table_isSolid a hatable)
        (table_isSolid b hbtable) ha
      rw [hno] at hb
      cases hb

theorem eq_of_accepts {a b : Rule} (ha : a ∈ table) (hb : b ∈ table) {body : List Char}
    (hab : a.guard.accepts body = true) (hbb : b.guard.accepts body = true) : a = b := by
  have hle := length_accepting_le_one body
  have hamem : a ∈ table.filter fun rule => rule.guard.accepts body := List.mem_filter.2 ⟨ha, hab⟩
  have hbmem : b ∈ table.filter fun rule => rule.guard.accepts body := List.mem_filter.2 ⟨hb, hbb⟩
  cases hrules : table.filter fun rule => rule.guard.accepts body with
  | nil =>
    rw [hrules] at hamem
    cases hamem
  | cons rule rest =>
    rw [hrules, List.length_cons] at hle
    obtain rfl := List.eq_nil_of_length_eq_zero (by omega : rest.length = 0)
    rw [hrules, List.mem_singleton] at hamem hbmem
    rw [hamem, hbmem]

end CompactShell.Rule
