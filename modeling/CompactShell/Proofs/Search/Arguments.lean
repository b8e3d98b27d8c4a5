import CompactShell.Proofs.Search.Parts
import CompactShell.Proofs.Search.Readings
import CompactShell.Proofs.Shell.Letters

/-!
# The values of a search, as they were typed

The compact form of a search holds names of options and values: a pattern, a path, and what options
were given. A value was typed as a word of its own, or in the word of an option behind the option's
name (`Typed`), and its text in the compact command is made of that alone (`Typed.text`). Where the
name stands outside quotes in front of an equals sign, what follows it is taken over as it is;
everywhere else the value is quoted anew.

`searchArguments` reads a search into names and values, in the order of its words, and
`grepArguments` puts them in the order of the compact command. They refine the parts
(`map_part_grepArguments`), so they make up the compact command too, and `isProper_of_mem` says what
each of them was made of.
-/

namespace CompactShell.Search

open Rule Shell Text

/-! ## Values -/

/-- How a value was typed. -/
inductive Typed where
  /-- As a word of its own. -/
  | word (word : Word)
  /-- Behind the first `lead` characters of a word, which are the name of an option and an equals
  sign. -/
  | behind (word : Word) (lead : Nat)
  /-- Behind the first `lead` characters of the value of a word: attached to a short option, or
  behind the name of a long one that holds quotes. -/
  | attached (word : Word) (lead : Nat)
  deriving DecidableEq, Repr

namespace Typed

/-- What becomes of the value in the compact command. -/
def text : Typed → List Char
  | word w => w.raw
  | behind w lead => w.raw.drop lead
  | attached w lead => requote (w.value.drop lead)

/-- What the shell makes of the value where it was typed. -/
def letters : Typed → List Letter
  | word w => Shell.letters w.raw
  | behind w lead => (Shell.letters w.raw).drop lead
  | attached w lead => (Shell.letters w.raw).drop lead

/-- Nothing was typed behind the equals sign. -/
def isBare : Typed → Bool
  | behind w lead => (w.raw.drop lead).isEmpty
  | _ => false

/-- The value is taken over as it was typed, or it is literal. -/
def isSafe : Typed → Bool
  | attached w _ => isLiteral .start w.raw
  | _ => true

/-- The value behind the name of a long option. -/
def ofLong (lead : String) (w : Word) : Typed :=
  if startsWith lead w.raw then behind w lead.length else attached w lead.length

/-- The value that stands in the word of an option. In a cluster it stands behind the first letter
that takes a value. -/
def ofOption (searcher : Searcher) (w : Word) : Typed :=
  if startsWith "--include=" w.value then ofLong "--include=" w
  else if startsWith "--regexp=" w.value then ofLong "--regexp=" w
  else attached w (2 + (w.value.tail.takeWhile (!searcher.valueLetters.contains ·)).length)

/-- The value was typed in the command. In front of it stand only plain characters of its word. -/
inductive IsProper (command : List Char) : Typed → Prop where
  | word {w : Word} : w ∈ words command → IsProper command (.word w)
  | behind {w : Word} {lead rest : List Char} : w ∈ words command → PlainText lead →
      w.raw = lead ++ rest → IsProper command (.behind w lead.length)
  | attached {w : Word} {lead rest : List Char} : w ∈ words command → PlainText lead →
      w.value = lead ++ rest → IsProper command (.attached w lead.length)

/-- The value behind the name of a long option is what the reader takes for it. -/
theorem text_ofLong (lead : String) (w : Word) :
    (ofLong lead w).text = (attachedValue lead w).raw := by
  rw [ofLong, attachedValue]
  split
  · rfl
  · rfl

theorem isProper_ofLong {command : List Char} {w : Word} (hw : w ∈ words command) {lead : String}
    (hlead : PlainText lead.toList) (hvalue : startsWith lead w.value = true) :
    (ofLong lead w).IsProper command := by
  rw [ofLong, ← String.length_toList]
  split
  · rename_i hraw
    obtain ⟨rest, hrest⟩ := startsWith_iff.1 hraw
    exact .behind hw hlead hrest
  · obtain ⟨rest, hrest⟩ := startsWith_iff.1 hvalue
    exact .attached hw hlead hrest

/-- The name of the option decides where its value stands. -/
theorem ofOption_of_equals (searcher : Searcher) {w : Word} {lead : String} {role : Role}
    (h : (lead, role) ∈ equalsRoles) (hvalue : startsWith lead w.value = true) :
    ofOption searcher w = ofLong lead w := by
  rw [equalsRoles, List.mem_pair] at h
  rcases h with h | h
  · cases h
    rw [ofOption, if_pos hvalue]
  · cases h
    obtain ⟨rest, hrest⟩ := startsWith_iff.1 hvalue
    rw [ofOption, if_neg, if_pos hvalue]
    rw [hrest]
    exact Bool.false_ne_true

/-- In a cluster the value stands behind its flags and its letter. -/
theorem ofOption_of_isCluster {searcher : Searcher} {w : Word} {flags attached : List Char}
    {letter : Char} (h : IsCluster searcher w ⟨flags, some (letter, attached)⟩) :
    ofOption searcher w = .attached w ('-' :: (flags ++ [letter])).length := by
  have hvalue : w.value = '-' :: (flags ++ letter :: attached) := h.value_eq
  have hletter : searcher.valueLetters.contains letter = true :=
    List.contains_iff_mem.2 (h.valued letter attached rfl)
  have hflags : (flags ++ letter :: attached).takeWhile (!searcher.valueLetters.contains ·) =
      flags := by
    rw [List.takeWhile_append_of_pos fun c hc => by rw [h.plain c hc]; rfl,
      List.takeWhile_cons_of_neg (by rw [hletter]; exact Bool.false_ne_true), List.append_nil]
  -- a second dash would be a flag or the letter, and neither is one
  have hdash : ∀ lead : String, lead.toList = '-' :: '-' :: lead.toList.drop 2 →
      ¬ startsWith lead w.value = true := by
    intro lead hlead hstarts
    obtain ⟨rest, hrest⟩ := startsWith_iff.1 hstarts
    rw [hvalue, hlead, List.cons_append, List.cons_append, List.cons.injEq] at hrest
    cases flags with
    | nil =>
      obtain rfl : letter = '-' := (List.cons.inj hrest.2).1
      have hno : searcher.valueLetters.contains '-' = false := by
        cases searcher <;> decide
      exact Bool.false_ne_true (hno.symm.trans hletter)
    | cons c flags =>
      obtain rfl : c = '-' := (List.cons.inj hrest.2).1
      exact absurd (h.alphanumeric '-' (List.mem_cons_self ..)) (by decide +kernel)
  rw [ofOption, if_neg (hdash _ rfl), if_neg (hdash _ rfl), hvalue, List.tail_cons, hflags,
    List.length_cons, List.length_append, List.length_singleton]
  congr 1
  omega

end Typed

/-! ## Names and values -/

/-- The text is one word of plain characters. -/
structure IsPlainWord (text : List Char) : Prop where
  isWord : IsWord text
  plain : PlainText text

/-- The text can be the name of an option: it is plain, or a word of the command as it was typed. -/
def IsName (command text : List Char) : Prop :=
  IsPlainWord text ∨ ∃ w ∈ words command, text = w.raw

/-- A part of a compact command, with how it was typed if it is a value. Names of options and flags
are no values. -/
structure Argument where
  part : Part
  typed : Option Typed
  deriving DecidableEq, Repr

namespace Argument

def text (argument : Argument) : List Char :=
  argument.part.text

def place (argument : Argument) : Place :=
  argument.part.place

/-- Nothing was typed behind the equals sign of the option. -/
def isBare (argument : Argument) : Bool :=
  argument.typed.any Typed.isBare

/-- What an argument was made of: a value, or the name of an option. -/
inductive IsProper (command : List Char) : Argument → Prop where
  | value {part : Part} {typed : Typed} : part.text = typed.text → typed.IsProper command →
      IsProper command ⟨part, some typed⟩
  | name {part : Part} : part.place = .option → IsName command part.text →
      IsProper command ⟨part, none⟩

end Argument

/-- The arguments that an item makes. The value is typed as given, unless it is a positional
word. -/
def Item.arguments (source : Span) (typed : Typed) : Item → List Argument
  | .pattern w => [⟨⟨.subject, source, w.raw⟩, some typed⟩]
  | .positional w => [⟨⟨.positional, source, w.raw⟩, some (.word w)⟩]
  | .option [flag, value] =>
    [⟨⟨.option, source, flag⟩, none⟩, ⟨⟨.option, source, value⟩, some typed⟩]
  | .option texts => texts.map fun text => ⟨⟨.option, source, text⟩, none⟩

/-- The arguments that an option makes with the next word as its value. -/
def Role.arguments (source : Span) (value : PlacedWord) : Role → List Argument
  | .pattern => [⟨⟨.subject, value.span, value.word.raw⟩, some (.word value.word)⟩]
  | .option flag =>
    [⟨⟨.option, source, flag⟩, none⟩,
      ⟨⟨.option, value.span, value.word.raw⟩, some (.word value.word)⟩]

/-- The arguments that a word makes by itself. -/
def wordArguments (searcher : Searcher) (placed : PlacedWord) (items : List Item) :
    List Argument :=
  items.flatMap (Item.arguments placed.span (.ofOption searcher placed.word))

/-- The arguments that the words behind a searcher's name make, in the order of the words. -/
def readArguments (searcher : Searcher) : List PlacedWord → List Argument
  | [] => []
  | placed :: rest =>
    match Reading.ofWord searcher placed.word with
    | .items items => wordArguments searcher placed items ++ readArguments searcher rest
    | .valueNext items role =>
      match rest with
      | [] => []
      | value :: rest =>
        wordArguments searcher placed items ++
          (role.arguments placed.span value ++ readArguments searcher rest)
    | .endOfOptions =>
      rest.map fun placed =>
        ⟨⟨.positional, placed.span, placed.word.raw⟩, some (.word placed.word)⟩
    | .untranslatable => []

/-- The arguments of a search of file contents, in the order of its words. -/
def searchArguments (body : List Char) : List Argument :=
  match wordsAt body with
  | [] => []
  | name :: args =>
    match Searcher.ofWord? name.word.value with
    | none => []
    | some searcher => readArguments searcher args

/-- The arguments that have the place, in their order. -/
def argumentsIn (place : Place) (arguments : List Argument) : List Argument :=
  arguments.filter (·.place = place)

/-- The arguments of a search of file contents, in the order of the compact command. -/
def grepArguments (body : List Char) : List Argument :=
  argumentsIn .subject (searchArguments body) ++
    (argumentsIn .positional (searchArguments body) ++ argumentsIn .option (searchArguments body))

/-! ## Arguments are parts -/

theorem map_part_wordArguments (searcher : Searcher) (placed : PlacedWord) (items : List Item) :
    (wordArguments searcher placed items).map Argument.part =
      items.flatMap (Item.parts placed.span) := by
  rw [wordArguments, List.map_flatMap]
  congr 1
  funext item
  cases item with
  | pattern w => rfl
  | positional w => rfl
  | option texts =>
    unfold Item.arguments
    split
    · rename_i heq
      cases heq
    · rename_i heq
      cases heq
    · rename_i heq
      cases heq
      rfl
    · rename_i heq
      cases heq
      rw [List.map_map]
      rfl

theorem Role.map_part_arguments (role : Role) (source : Span) (value : PlacedWord) :
    (role.arguments source value).map Argument.part = role.parts source value := by
  cases role with
  | pattern => rfl
  | option flag => rfl

theorem map_part_readArguments (searcher : Searcher) (placed : List PlacedWord) :
    (readArguments searcher placed).map Argument.part = readParts searcher placed := by
  fun_induction readParts searcher placed with
  | case1 => rfl
  | case2 placed rest said hsaid ih =>
    rw [readArguments.eq_def]
    simp only [hsaid]
    rw [List.map_append, map_part_wordArguments, ih]
  | case3 placed said role hsaid =>
    rw [readArguments.eq_def]
    simp only [hsaid]
    rfl
  | case4 placed said role hsaid value rest ih =>
    rw [readArguments]
    simp only [hsaid]
    rw [List.map_append, List.map_append, map_part_wordArguments, Role.map_part_arguments, ih]
  | case5 placed rest hsaid =>
    rw [readArguments.eq_def]
    simp only [hsaid]
    rw [List.map_map]
    rfl
  | case6 placed rest hsaid =>
    rw [readArguments.eq_def]
    simp only [hsaid]
    rfl

theorem map_part_argumentsIn (place : Place) (arguments : List Argument) :
    (argumentsIn place arguments).map Argument.part =
      inPlace place (arguments.map Argument.part) := by
  rw [argumentsIn, inPlace, List.filter_map]
  rfl

/-- **The arguments are the parts of the search.** -/
theorem map_part_grepArguments (body : List Char) :
    (grepArguments body).map Argument.part = grepParts body := by
  rw [grepArguments, List.map_append, List.map_append, map_part_argumentsIn, map_part_argumentsIn,
    map_part_argumentsIn, ← arrange, searchArguments, grepParts]
  cases wordsAt body with
  | nil => rfl
  | cons name args =>
    dsimp only
    cases Searcher.ofWord? name.word.value with
    | none => rfl
    | some searcher => exact congrArg arrange (map_part_readArguments searcher args)

theorem map_text_grepArguments (body : List Char) :
    (grepArguments body).map Argument.text = (grepParts body).map Part.text := by
  rw [← map_part_grepArguments, List.map_map]
  rfl

/-! ## What arguments are made of -/

/-- What follows from what a role says of its value. -/
theorem Role.isProper_arguments {command : List Char} {role : Role} {source : Span}
    {value : PlacedWord} (hvalue : value.word ∈ words command)
    (hflag : ∀ flag, role = .option flag → IsName command flag) :
    ∀ a ∈ role.arguments source value, a.IsProper command := by
  cases role with
  | pattern =>
    rw [Role.arguments, List.forall_mem_singleton]
    exact .value rfl (.word hvalue)
  | option flag =>
    rw [Role.arguments, List.forall_mem_cons, List.forall_mem_singleton]
    exact ⟨.name rfl (hflag flag rfl), .value rfl (.word hvalue)⟩

/-- The arguments of an option and the value in its own word. -/
theorem Role.isProper_item {command : List Char} {role : Role} {source : Span} {typed : Typed}
    {value : Word} (htext : value.raw = typed.text) (htyped : typed.IsProper command)
    (hflag : ∀ flag, role = .option flag → IsName command flag) :
    ∀ a ∈ (role.item value).arguments source typed, a.IsProper command := by
  cases role with
  | pattern =>
    rw [Role.item, Item.arguments, List.forall_mem_singleton]
    exact .value htext htyped
  | option flag =>
    rw [Role.item, Item.arguments, List.forall_mem_cons, List.forall_mem_singleton]
    exact ⟨.name rfl (hflag flag rfl), .value htext htyped⟩

/-- A dash and letters or numbers are one word. -/
theorem isPlainWord_dash {letters : List Char} (h : ∀ c ∈ letters, isAlphanumeric c = true) :
    IsPlainWord ('-' :: letters) := by
  have hplain : PlainText ('-' :: letters) :=
    List.forall_mem_cons.2 ⟨by decide, fun c hc => isPlain_of_isAlphanumeric (h c hc)⟩
  refine ⟨isWord_of_plainText (List.cons_ne_nil _ _) hplain ?_, hplain⟩
  exact List.forall_mem_cons.2
    ⟨by decide, fun c hc => not_isBlank_of_class (by decide) (h c hc)⟩

theorem IsCluster.isProper_flagItems {searcher : Searcher} {w : Word} {cluster : Cluster}
    (h : IsCluster searcher w cluster) (command : List Char) (source : Span) (typed : Typed) :
    ∀ a ∈ cluster.flagItems.flatMap (Item.arguments source typed), a.IsProper command := by
  rcases cluster.flagItems_cases with hnone | ⟨kept, -, hkept, hflags⟩
  · rw [hnone]
    exact List.forall_mem_nil _
  · rw [hflags, List.flatMap_singleton, Item.arguments.eq_def]
    dsimp only
    rw [List.map_singleton, List.forall_mem_singleton]
    exact .name rfl (.inl (isPlainWord_dash fun c hc => h.alphanumeric c (hkept c hc)))

theorem isAlphanumeric_of_mem_valueLetters {searcher : Searcher} {c : Char}
    (h : c ∈ searcher.valueLetters) : isAlphanumeric c = true := by
  have hall : searcher.valueLetters.all isAlphanumeric = true := by
    cases searcher <;> decide +kernel
  exact List.all_eq_true.1 hall c h

/-- The flag that a short option becomes. -/
theorem isPlainWord_of_shortRole? {searcher : Searcher} {letter : Char} {role : Role}
    (hletter : letter ∈ searcher.valueLetters) (h : shortRole? letter = some role) :
    ∀ flag, role = .option flag → IsPlainWord flag := by
  rintro flag rfl
  rw [shortRole?] at h
  split at h
  · cases h
  · split at h
    · cases h
    · cases h
      exact isPlainWord_dash
        (List.forall_mem_singleton.2 (isAlphanumeric_of_mem_valueLetters hletter))

/-- The flag that the tool has for the files to search. -/
theorem isPlainWord_glob : IsPlainWord "--glob".toList :=
  ⟨by decide, plainText_of_isOwn (by decide)⟩

/-- The flag that a long option becomes. -/
theorem isName_of_longRole? {command : List Char} {w : Word} (hw : w ∈ words command) {role : Role}
    (h : longRole? w = some role) : ∀ flag, role = .option flag → IsName command flag := by
  rintro flag rfl
  rw [longRole?] at h
  split at h
  · cases h
  · split at h
    · cases h
      exact .inl isPlainWord_glob
    · split at h
      · cases h
        exact .inr ⟨w, hw, rfl⟩
      · cases h

/-- **What the arguments of an option are made of.** -/
theorem OptionReads.isProper {searcher : Searcher} {command : List Char} {placed : PlacedWord}
    (hw : placed.word ∈ words command) {reading : Reading}
    (h : OptionReads searcher placed.word reading) :
    ∀ a ∈ wordArguments searcher placed reading.made, a.IsProper command := by
  cases h with
  | untranslatable => exact List.forall_mem_nil _
  | redundant => exact List.forall_mem_nil _
  | @equals lead role hrole hvalue =>
    have htyped : Typed.ofOption searcher placed.word = .ofLong lead placed.word :=
      Typed.ofOption_of_equals searcher hrole hvalue
    have hall : ∀ entry ∈ equalsRoles, PlainText entry.1.toList ∧
        ∀ flag, entry.2 = .option flag → IsPlainWord flag := by
      rw [equalsRoles, List.forall_mem_cons, List.forall_mem_singleton]
      refine ⟨⟨plainText_of_isOwn (by decide), ?_⟩, plainText_of_isOwn (by decide), ?_⟩
      · rintro flag heq
        cases heq
        exact isPlainWord_glob
      · rintro flag heq
        cases heq
    obtain ⟨hplain, hflag⟩ := hall _ hrole
    rw [Reading.made, wordArguments, List.flatMap_singleton, htyped]
    exact Role.isProper_item (Typed.text_ofLong lead placed.word).symm
      (Typed.isProper_ofLong hw hplain hvalue) fun flag heq => .inl (hflag flag heq)
  | next hrole => exact List.forall_mem_nil _
  | flags hcluster => exact hcluster.isProper_flagItems command _ _
  | flagsNext hcluster hrole => exact hcluster.isProper_flagItems command _ _
  | @flagsAttached flags attached letter role hcluster hne hrole =>
    have htyped := Typed.ofOption_of_isCluster hcluster
    have hletter := hcluster.valued letter attached rfl
    have hvalue : placed.word.value = ('-' :: (flags ++ [letter])) ++ attached := by
      rw [hcluster.value_eq, Cluster.letters, List.cons_append, List.append_assoc]
      rfl
    have hplain : PlainText ('-' :: (flags ++ [letter])) := by
      refine List.forall_mem_cons.2 ⟨by decide, ?_⟩
      refine PlainText.append (fun c hc => ?_) (List.forall_mem_singleton.2 ?_)
      · exact isPlain_of_isAlphanumeric (hcluster.alphanumeric c hc)
      · exact isPlain_of_isAlphanumeric (isAlphanumeric_of_mem_valueLetters hletter)
    rw [Reading.made, wordArguments, List.flatMap_append, List.forall_mem_append,
      List.flatMap_singleton, htyped]
    refine ⟨hcluster.isProper_flagItems command _ _, ?_⟩
    refine Role.isProper_item ?_ (.attached hw hplain hvalue) fun flag heq =>
      .inl (isPlainWord_of_shortRole? hletter hrole flag heq)
    rw [Typed.text, hvalue, List.drop_left]
  | kept =>
    rw [Reading.made, wordArguments, List.flatMap_singleton, Item.arguments.eq_def]
    dsimp only
    rw [List.map_singleton, List.forall_mem_singleton]
    exact .name rfl (.inr ⟨placed.word, hw, rfl⟩)

/-- The flag of an option whose value is the next word. -/
theorem OptionReads.isName_of_valueNext {searcher : Searcher} {command : List Char} {w : Word}
    (hw : w ∈ words command) {items : List Item} {role : Role}
    (h : OptionReads searcher w (.valueNext items role)) :
    ∀ flag, role = .option flag → IsName command flag := by
  cases h with
  | next hrole => exact isName_of_longRole? hw hrole
  | @flagsNext flags letter role hcluster hrole =>
    exact fun flag heq =>
      .inl (isPlainWord_of_shortRole? (hcluster.valued letter [] rfl) hrole flag heq)

/-- **What the arguments of a search are made of.** -/
theorem isProper_of_mem_readArguments {searcher : Searcher} {command : List Char}
    {placed : List PlacedWord} (hplaced : ∀ p ∈ placed, p.word ∈ words command) :
    ∀ a ∈ readArguments searcher placed, a.IsProper command := by
  fun_induction readArguments searcher placed with
  | case1 => exact List.forall_mem_nil _
  | case2 placed rest said hsaid ih =>
    rw [List.forall_mem_cons] at hplaced
    refine List.forall_mem_append.2 ⟨?_, ih hplaced.2⟩
    rcases ofWord_items_cases hsaid with hreads | ⟨-, rfl⟩
    · exact hreads.isProper hplaced.1
    · rw [wordArguments, List.flatMap_singleton, Item.arguments, List.forall_mem_singleton]
      exact .value rfl (.word hplaced.1)
  | case3 => exact List.forall_mem_nil _
  | case4 placed said role hsaid value rest ih =>
    rw [List.forall_mem_cons, List.forall_mem_cons] at hplaced
    obtain ⟨hword, hvalue, hrest⟩ := hplaced
    have hreads := optionReads_of_valueNext hsaid
    exact List.forall_mem_append.2 ⟨hreads.isProper hword, List.forall_mem_append.2
      ⟨Role.isProper_arguments hvalue (hreads.isName_of_valueNext hword), ih hrest⟩⟩
  | case5 placed rest hsaid =>
    intro a ha
    obtain ⟨p, hp, rfl⟩ := List.mem_map.1 ha
    exact .value rfl (.word (hplaced p (List.mem_cons_of_mem _ hp)))
  | case6 => exact List.forall_mem_nil _

theorem isProper_of_mem_searchArguments {body : List Char} :
    ∀ a ∈ searchArguments body, a.IsProper body := by
  unfold searchArguments
  split
  · exact List.forall_mem_nil _
  · rename_i name args hwords
    split
    · exact List.forall_mem_nil _
    · refine isProper_of_mem_readArguments fun p hp => ?_
      rw [← map_word_wordsAt, hwords]
      exact List.mem_map_of_mem (List.mem_cons_of_mem _ hp)

theorem mem_searchArguments_of_mem_grepArguments {body : List Char} {a : Argument}
    (h : a ∈ grepArguments body) : a ∈ searchArguments body := by
  rw [grepArguments, List.mem_append, List.mem_append] at h
  rcases h with h | h | h
  · exact (List.mem_filter.1 h).1
  · exact (List.mem_filter.1 h).1
  · exact (List.mem_filter.1 h).1

theorem isProper_of_mem {body : List Char} {a : Argument} (h : a ∈ grepArguments body) :
    a.IsProper body :=
  isProper_of_mem_searchArguments a (mem_searchArguments_of_mem_grepArguments h)

end CompactShell.Search
