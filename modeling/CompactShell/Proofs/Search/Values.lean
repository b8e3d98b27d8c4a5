import CompactShell.Proofs.Search.Arguments

/-!
# What becomes of the values of a search

The texts of a compact command are put together with blanks between them, each with the quotes that
it was typed with or with quotes of its own. Two things can go wrong on the way, and the statements
here say that nothing else can.

* **A value is lost** if nothing was typed behind the equals sign of its option: the empty text
  leaves no word between two blanks (`words_of_search_iff`).
* **A value is changed** if it was attached to its option and is not literal. It is quoted anew from
  a value without quotes that still has its backslashes, and the new quotes close every dollar sign
  that was open (`letters_of_search_iff`).

Either way an attached value stays one word with the same value (`attached_values_are_words`).
-/

namespace CompactShell.Search

open Rule Shell Text

/-! ## Every argument is a word -/

/-- An argument has no text exactly if nothing was typed behind the equals sign of its option. -/
theorem Argument.IsProper.text_eq_nil_iff {command : List Char} {a : Argument}
    (h : a.IsProper command) : a.text = [] ↔ a.isBare = true := by
  cases h with
  | @value part typed htext htyped =>
    rw [Argument.text, htext]
    cases htyped with
    | word hw =>
      obtain ⟨-, -, -, -, -, hne⟩ := exists_piece_of_mem_words hw
      exact iff_of_false hne Bool.false_ne_true
    | behind hw hlead hraw => exact List.isEmpty_iff.symm
    | attached hw hlead hvalue => exact iff_of_false (isWord_requote _).ne_nil Bool.false_ne_true
  | @name part hplace hname =>
    refine iff_of_false ?_ Bool.false_ne_true
    rcases hname with hplain | ⟨w, hw, hraw⟩
    · exact hplain.isWord.ne_nil
    · obtain ⟨-, -, -, -, -, hne⟩ := exists_piece_of_mem_words hw
      rw [Argument.text, hraw]
      exact hne

/-- In a whole command every argument with a text is one word. -/
theorem Argument.IsProper.isWord {command : List Char} (hcommand : IsWhole command) {a : Argument}
    (h : a.IsProper command) (hne : a.text ≠ []) : IsWord a.text := by
  cases h with
  | @value part typed htext htyped =>
    rw [Argument.text, htext] at hne ⊢
    cases htyped with
    | word hw => exact isWord_of_mem_words hcommand hw
    | @behind w lead rest hw hlead hraw =>
      have hword := isWord_of_mem_words hcommand hw
      rw [Typed.text, hraw, List.drop_left] at hne ⊢
      rw [hraw] at hword
      exact hword.behind hlead hne
    | attached hw hlead hvalue => exact isWord_requote _
  | @name part hplace hname =>
    rcases hname with hplain | ⟨w, hw, hraw⟩
    · exact hplain.isWord
    · rw [Argument.text, hraw]
      exact isWord_of_mem_words hcommand hw

/-! ## Attached values as single words -/

/-- The value behind the name of a long option is one word, whether it keeps its quotes or gets new
ones. -/
theorem words_attachedValue {command : List Char} {w : Word} (hw : w ∈ words command)
    {lead : String} (hlead : PlainText lead.toList) {rest : List Char}
    (hvalue : w.value = lead.toList ++ rest) (hne : rest ≠ []) :
    (attachedValue lead w).value = rest ∧
      words (attachedValue lead w).raw = [attachedValue lead w] := by
  have hrest : w.value.drop lead.length = rest := by
    rw [hvalue, ← String.length_toList, List.drop_left]
  rw [attachedValue]
  split
  · rename_i hraw
    obtain ⟨typed, htyped⟩ := startsWith_iff.1 hraw
    -- nothing typed behind the name would leave nothing of the value
    have htypedne : typed ≠ [] := by
      intro hnil
      have hsame : w.value = lead.toList ++ unquoted .start typed := by
        rw [← ofText_raw_of_mem_words hw, Word.ofText, htyped]
        exact unquoted_plainText_append hlead typed
      rw [hnil, hvalue] at hsame
      exact hne (List.append_cancel_left hsame)
    have hwords := words_behind hw hlead htyped htypedne
    rw [String.length_toList] at hwords
    have hdrop : w.raw.drop lead.length = typed := by
      rw [htyped, ← String.length_toList, List.drop_left]
    rw [hdrop]
    exact ⟨hrest, hwords⟩
  · rw [hrest]
    exact ⟨rfl, words_requote rest⟩

/-- **A value that is attached to an option is one word of the compact command**, with the same
value. That holds of every word of a command, its quotes closed or not, for the values behind the
names of long options and for those in clusters of short ones. -/
theorem attached_values_are_words {command : List Char} {w : Word} (hw : w ∈ words command) :
    (∀ lead ∈ ["--include=", "--regexp="], ∀ rest, w.value = lead.toList ++ rest → rest ≠ [] →
      (attachedValue lead w).value = rest ∧
        words (attachedValue lead w).raw = [attachedValue lead w]) ∧
    ∀ (searcher : Searcher) (flags : List Char) (letter : Char) (attached : List Char),
      isShortOption w.value = true →
      Cluster.ofLetters? searcher.valueLetters w.value.tail =
        some ⟨flags, some (letter, attached)⟩ →
      w.value = '-' :: (flags ++ letter :: attached) ∧
        words (requote attached) = [⟨requote attached, attached⟩] := by
  refine ⟨fun lead hlead rest hvalue hne => ?_, ?_⟩
  · have hplain : ∀ lead ∈ ["--include=", "--regexp="], PlainText lead.toList := by
      rw [List.forall_mem_cons, List.forall_mem_singleton]
      exact ⟨plainText_of_isOwn (by decide), plainText_of_isOwn (by decide)⟩
    exact words_attachedValue hw (hplain lead hlead) hvalue hne
  · intro searcher flags letter attached hshort hcluster
    have hletters : flags ++ letter :: attached = w.value.tail :=
      (Cluster.letters_of_ofLetters? hcluster).1
    rw [hletters]
    exact ⟨(isOption_of_isShortOption hshort).2, words_requote attached⟩

/-- A search with a value behind a name in quotes, one behind a bare name, and a pattern in a cluster
with a quote that stays open. -/
def attachingSearch : List Char :=
  "grep \"--include=it's \\\"x\" --regexp=a\\ 'b c' -ie'p  q".toList

/-- New quotes hold both kinds of quotes and a backslash, and those that were typed are kept. -/
theorem attached_values_are_words_quoted :
    words "'it'\"'\"'s \\\"x'".toList =
        [⟨"'it'\"'\"'s \\\"x'".toList, "it's \\\"x".toList⟩] ∧
      words "a\\ 'b c'".toList = [⟨"a\\ 'b c'".toList, "a\\ b c".toList⟩] ∧
      words "'p  q'".toList = [⟨"'p  q'".toList, "p  q".toList⟩] := by
  have hquoted : ⟨"\"--include=it's \\\"x\"".toList, "--include=it's \\\"x".toList⟩ ∈
      words attachingSearch := by decide +kernel
  have hbare : ⟨"--regexp=a\\ 'b c'".toList, "--regexp=a\\ b c".toList⟩ ∈
      words attachingSearch := by decide +kernel
  have hcluster : ⟨"-ie'p  q".toList, "-iep  q".toList⟩ ∈ words attachingSearch := by
    decide +kernel
  have hnew := (attached_values_are_words hquoted).1 "--include=" (by decide)
    "it's \\\"x".toList rfl (by decide)
  have hkept := (attached_values_are_words hbare).1 "--regexp=" (by decide) "a\\ b c".toList rfl
    (by decide)
  have hletter := (attached_values_are_words hcluster).2 .grep ['i'] 'e' "p  q".toList rfl
    (by decide +kernel)
  exact ⟨hnew.2, hkept.2, hletter.2⟩

/-! ## The pattern and the path -/

theorem map_text_argumentsIn {searcher : Searcher} (placed : List PlacedWord) (place : Place) :
    (argumentsIn place (readArguments searcher placed)).map Argument.text =
      (inPlace place (readParts searcher placed)).map Part.text := by
  rw [← map_part_readArguments, ← map_part_argumentsIn, List.map_map]
  rfl

/-- **A search has one pattern, and at most one path.** The pattern is what an option gave, or else
the first positional word. -/
theorem exists_pattern {body new : List Char} (hfree : findOperator body = none)
    (h : translateGrep? body = some new) :
    ∃ (pattern : Argument) (path : Option Argument),
      argumentsIn .subject (searchArguments body) = [pattern] ∧
          argumentsIn .positional (searchArguments body) = path.toList ∨
        argumentsIn .subject (searchArguments body) = [] ∧
          argumentsIn .positional (searchArguments body) = pattern :: path.toList := by
  obtain ⟨name, args, searcher, items, query, hwords, hsearcher, hitems, hquery, rfl⟩ :=
    exists_query_of_translateGrep? hfree h
  have hsays := says_readParts hitems
  have hsearch : searchArguments body = readArguments searcher args := by
    rw [searchArguments, hwords]
    dsimp only
    rw [hsearcher]
  have hsubject := (map_text_argumentsIn args .subject).trans hsays.subject
  have hpositional := (map_text_argumentsIn args .positional).trans hsays.positional
  rw [← hsearch] at hsubject hpositional
  have hpath : ∀ arguments : List Argument,
      arguments.map Argument.text = query.path.toList.map Word.raw →
      ∃ path : Option Argument, arguments = path.toList := by
    intro arguments heq
    cases hquerypath : query.path with
    | none =>
      rw [hquerypath] at heq
      exact ⟨none, List.map_eq_nil_iff.1 heq⟩
    | some w =>
      rw [hquerypath] at heq
      obtain ⟨a, rest, rfl, -, hrest⟩ := List.map_eq_cons_iff.1 heq
      exact ⟨some a, by rw [List.map_eq_nil_iff.1 hrest]; rfl⟩
  rcases (Query.ofItems?_spec hquery).2 with ⟨hpatterns, hwordsOf⟩ | ⟨hpatterns, hwordsOf⟩
  · rw [hpatterns] at hsubject
    rw [hwordsOf] at hpositional
    obtain ⟨pattern, rest, heq, -, hrest⟩ := List.map_eq_cons_iff.1 hpositional
    obtain ⟨path, rfl⟩ := hpath rest hrest
    exact ⟨pattern, path, .inr ⟨List.map_eq_nil_iff.1 hsubject, heq⟩⟩
  · rw [hpatterns] at hsubject
    rw [hwordsOf] at hpositional
    obtain ⟨pattern, rest, heq, -, hrest⟩ := List.map_eq_cons_iff.1 hsubject
    obtain ⟨path, hpositional⟩ := hpath _ hpositional
    rw [List.map_eq_nil_iff.1 hrest] at heq
    exact ⟨pattern, path, .inl ⟨heq, hpositional⟩⟩

/-! ## Words that are lost -/

theorem joinBlank_grepArguments {body new : List Char} (hfree : findOperator body = none)
    (h : translateGrep? body = some new) :
    new = joinBlank ("rtk".toList :: "grep".toList :: (grepArguments body).map Argument.text) := by
  rw [map_text_grepArguments]
  exact joinBlank_grepParts hfree h

/-- The words of a compact search are those of its arguments that were typed. -/
theorem words_of_translateGrep? {body new : List Char} (hwhole : IsWhole body)
    (hfree : findOperator body = none) (h : translateGrep? body = some new) :
    words new = ("rtk".toList :: "grep".toList ::
      ((grepArguments body).filter (!·.isBare)).map Argument.text).map Word.ofText := by
  have hkeeps : ∀ a ∈ grepArguments body, (decide (a.text ≠ [])) = !a.isBare := by
    intro a ha
    have hiff := (isProper_of_mem ha).text_eq_nil_iff
    cases hbare : a.isBare with
    | true => simpa using hiff.2 hbare
    | false =>
      rw [hbare] at hiff
      simpa using hiff
  have hwords : ∀ t ∈ "rtk".toList :: "grep".toList :: (grepArguments body).map Argument.text,
      t ≠ [] → IsWord t := by
    rw [List.forall_mem_cons, List.forall_mem_cons]
    refine ⟨fun _ => by decide, fun _ => by decide, ?_⟩
    intro t ht hne
    obtain ⟨a, ha, rfl⟩ := List.mem_map.1 ht
    exact (isProper_of_mem ha).isWord hwhole hne
  rw [joinBlank_grepArguments hfree h, words_joinBlank hwords, List.filter_cons_of_pos (by decide),
    List.filter_cons_of_pos (by decide), List.filter_map]
  congr 4
  exact List.filter_congr hkeeps

/-- **Which words a compact search has.** They are the tool's words, the pattern, the path and the
options with their values, each as a word of its own, but for values of which nothing was typed:
these are lost. -/
theorem words_of_search_iff {body new : List Char} (hwhole : IsWhole body)
    (hfree : hasOperator body = false) (h : translateGrep? body = some new) :
    ∃ (pattern : Argument) (path : Option Argument),
      (argumentsIn .subject (searchArguments body) = [pattern] ∧
          argumentsIn .positional (searchArguments body) = path.toList ∨
        argumentsIn .subject (searchArguments body) = [] ∧
          argumentsIn .positional (searchArguments body) = pattern :: path.toList) ∧
      words new = ("rtk".toList :: "grep".toList ::
        ((grepArguments body).filter (!·.isBare)).map Argument.text).map Word.ofText ∧
      (words new = ("rtk".toList :: "grep".toList ::
          (pattern :: (path.toList ++ argumentsIn .option (searchArguments body))).map
            Argument.text).map Word.ofText ↔
        ∀ a ∈ grepArguments body, a.isBare = false) := by
  have hnone := hasOperator_eq_false_iff.1 hfree
  obtain ⟨pattern, path, hplaces⟩ := exists_pattern hnone h
  have hwords := words_of_translateGrep? hwhole hnone h
  have hall : grepArguments body =
      pattern :: (path.toList ++ argumentsIn .option (searchArguments body)) := by
    rw [grepArguments]
    rcases hplaces with ⟨hsubject, hpositional⟩ | ⟨hsubject, hpositional⟩
    · rw [hsubject, hpositional]
      rfl
    · rw [hsubject, hpositional]
      rfl
  refine ⟨pattern, path, hplaces, hwords, ?_⟩
  rw [hwords, ← hall]
  constructor
  · intro heq a ha
    have hlength := congrArg List.length heq
    simp only [List.length_map, List.length_cons, Nat.add_right_cancel_iff] at hlength
    have hself := List.length_filter_eq_length_iff.1 hlength a ha
    rwa [Bool.not_eq_true'] at hself
  · intro hbare
    rw [List.filter_eq_self.2 fun a ha => by rw [hbare a ha]; rfl]

/-- A pattern of which nothing was typed is lost, and the path becomes the pattern. -/
theorem empty_pattern_lost :
    translateGrep? "grep --regexp= src".toList = some "rtk grep  src".toList ∧
      (grepArguments "grep --regexp= src".toList).map (fun a => (a.place, a.text)) =
        [(.subject, []), (.positional, "src".toList)] ∧
      (words "rtk grep  src".toList).map Word.raw =
        ["rtk".toList, "grep".toList, "src".toList] := by
  decide +kernel

/-- Values that are empty between quotes are kept, in every form that an option has. -/
theorem words_of_search_iff_quoted :
    words "rtk grep '' src --glob \"\" -m '1 0'".toList =
      (["rtk", "grep", "''", "src", "--glob", "\"\"", "-m", "'1 0'"].map String.toList).map
        Word.ofText := by
  have hwhole : IsWhole "grep \"--regexp=\" --include=\"\" -rm'1 0' src".toList := by
    decide +kernel
  have hfree : hasOperator "grep \"--regexp=\" --include=\"\" -rm'1 0' src".toList = false := by
    decide
  have htranslate : translateGrep? "grep \"--regexp=\" --include=\"\" -rm'1 0' src".toList =
      some "rtk grep '' src --glob \"\" -m '1 0'".toList := by decide +kernel
  obtain ⟨pattern, path, -, hwords, -⟩ := words_of_search_iff hwhole hfree htranslate
  rw [hwords]
  decide +kernel

/-! ## Values that are changed -/

/-- **Which values a compact search keeps.** What the shell makes of a value is what it made of it
where it was typed, exactly if the value was typed as a word or behind an equals sign, or is
literal. The pattern and the path are values; all else is plain or a word as it was typed. -/
theorem letters_of_search_iff {body new : List Char} (hfree : hasOperator body = false)
    (h : translateGrep? body = some new) :
    new = joinBlank ("rtk".toList :: "grep".toList :: (grepArguments body).map Argument.text) ∧
      ∀ a ∈ grepArguments body,
        (a.typed = none → a.place = .option ∧ IsName body a.text) ∧
        ∀ typed ∈ a.typed, (letters a.text = typed.letters ↔ typed.isSafe = true) := by
  refine ⟨joinBlank_grepArguments (hasOperator_eq_false_iff.1 hfree) h, fun a ha => ?_⟩
  cases isProper_of_mem ha with
  | @name part hplace hname =>
    exact ⟨fun _ => ⟨hplace, hname⟩, fun typed htyped => (Option.not_mem_none _ htyped).elim⟩
  | @value part typed htext hproper =>
    refine ⟨fun hnone => absurd hnone (Option.some_ne_none typed), fun other hother => ?_⟩
    obtain rfl := Option.some.inj hother
    rw [Argument.text, htext]
    cases hproper with
    | word hw => exact iff_of_true rfl rfl
    | @behind w lead rest hw hlead hraw =>
      refine iff_of_true ?_ rfl
      rw [Typed.text, Typed.letters, hraw, List.drop_left, letters_plainText_append hlead,
        List.drop_left' (List.length_map Letter.plain)]
    | @attached w lead rest hw hlead hvalue =>
      have hunquoted : unquoted .start w.raw = lead ++ rest := by
        rw [← hvalue]
        exact congrArg Word.value (ofText_raw_of_mem_words hw)
      rw [Typed.text, Typed.letters, Typed.isSafe, hvalue, List.drop_left]
      exact letters_requote_eq_drop_iff hlead hunquoted

/-- A variable in a pattern that is attached to its option is no longer expanded. -/
theorem attached_variable_closed :
    translateGrep? "grep -e$PAT src".toList = some "rtk grep '$PAT' src".toList ∧
      (grepArguments "grep -e$PAT src".toList).map (fun a => (a.place, a.text, a.typed)) =
        [(.subject, "'$PAT'".toList,
            some (.attached ⟨"-e$PAT".toList, "-e$PAT".toList⟩ 2)),
          (.positional, "src".toList, some (.word ⟨"src".toList, "src".toList⟩))] ∧
      letters "'$PAT'".toList = ['$', 'P', 'A', 'T'].map .plain ∧
      Typed.letters (.attached ⟨"-e$PAT".toList, "-e$PAT".toList⟩ 2) =
        ⟨'$', true⟩ :: ['P', 'A', 'T'].map .plain := by
  decide +kernel

/-- A literal pattern is kept with new quotes, and a variable behind an equals sign stays open. -/
theorem letters_of_search_iff_attached :
    "rtk grep 'a b' src -i --glob \"$g\"".toList = joinBlank ("rtk".toList :: "grep".toList ::
        (grepArguments "grep -ie'a b' --include=\"$g\" src".toList).map Argument.text) ∧
      letters "'a b'".toList = (letters "-ie'a b'".toList).drop 3 ∧
      letters "\"$g\"".toList = (letters "--include=\"$g\"".toList).drop 10 := by
  have hfree : hasOperator "grep -ie'a b' --include=\"$g\" src".toList = false := by decide
  have htranslate : translateGrep? "grep -ie'a b' --include=\"$g\" src".toList =
      some "rtk grep 'a b' src -i --glob \"$g\"".toList := by decide +kernel
  obtain ⟨hnew, hvalues⟩ := letters_of_search_iff hfree htranslate
  refine ⟨hnew, ?_, ?_⟩
  · exact ((hvalues ⟨⟨.subject, ⟨5, 13⟩, "'a b'".toList⟩,
      some (.attached ⟨"-ie'a b'".toList, "-iea b".toList⟩ 3)⟩ (by decide +kernel)).2 _ rfl).2
      (by decide)
  · exact ((hvalues ⟨⟨.option, ⟨14, 28⟩, "\"$g\"".toList⟩,
      some (.behind ⟨"--include=\"$g\"".toList, "--include=$g".toList⟩ 10)⟩
      (by decide +kernel)).2 _ rfl).2 (by decide)

end CompactShell.Search
