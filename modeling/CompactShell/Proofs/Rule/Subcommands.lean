import CompactShell.Proofs.Rule.Fronts
import CompactShell.Proofs.Shell.Single
import CompactShell.Rule.Table

/-!
# Options in front of a subcommand

What stands in front of a subcommand are complete options: a flag alone, a flag with the word that
it takes for its value, or a flag with its value in one word (`IsUnit`). Such units are passed over
one by one, whatever their values look like (`AreUnits.subcommand_append`), and behind them the
search stops at once: at a word that begins no unit, or at the end (`exists_stops`).

So the subcommand is the word behind the units, and a rule for subcommands is about those commands
whose word is on its list (`subcommand_found_iff`).
-/

namespace CompactShell.Rule

open Shell Text

namespace GlobalOptions

variable {options : GlobalOptions}

/-- A complete option: the words that stand for it in front of a subcommand. -/
inductive IsUnit (options : GlobalOptions) : List (List Char) → Prop where
  /-- A flag without a value. -/
  | bare {flag : List Char} : isOneOf options.bare flag = true → IsUnit options [flag]
  /-- A flag with any word for its value. -/
  | valued {flag value : List Char} : isOneOf options.valued flag = true →
      isOneOf options.bare flag = false → IsUnit options [flag, value]
  /-- A long option with its value behind an equals sign. -/
  | assigned {word : List Char} : startsWith "--" word = true → '=' ∈ word → IsUnit options [word]
  /-- A flag with its value attached. -/
  | attached {flag : String} {word : List Char} : flag ∈ options.attached →
      startsWith flag word = true → flag.length < word.length → IsUnit options [word]

def AreUnits (options : GlobalOptions) (units : List (List (List Char))) : Prop :=
  ∀ unit ∈ units, options.IsUnit unit

/-- The word is the subcommand among the arguments: units stand in front of it, and it is neither
the start of a unit nor a flag whose value is missing. -/
def Finds (options : GlobalOptions) (args : List (List Char)) (word : List Char) : Prop :=
  ∃ units rest, options.AreUnits units ∧ args = units.flatten ++ word :: rest ∧
    (∀ more, ¬ options.IsUnit (word :: more)) ∧ isOneOf options.valued word = false

/-- There is no subcommand among the arguments: behind the units stands nothing, a flag whose value
is missing, or an empty word. -/
def FindsNone (options : GlobalOptions) (args : List (List Char)) : Prop :=
  ∃ units rest, options.AreUnits units ∧ args = units.flatten ++ rest ∧
    (rest = [] ∨ (∃ flag, rest = [flag] ∧ isOneOf options.valued flag = true) ∨
      ∃ more, rest = [] :: more)

/-! ## Where the search stops -/

/-- What is passed over at a word: itself, with the one behind it, or nothing. -/
theorem subcommand_cons (word : List Char) (rest : List (List Char)) :
    options.subcommand (word :: rest) =
      if isOneOf options.bare word then options.subcommand rest
      else if isOneOf options.valued word then options.subcommand rest.tail
      else if options.holdsValue word then options.subcommand rest
      else word := by
  cases rest with
  | nil =>
    rw [subcommand.eq_def]
    rfl
  | cons value rest => rw [subcommand.eq_def, List.tail_cons]

theorem holdsValue_iff {word : List Char} :
    options.holdsValue word = true ↔
      (startsWith "--" word = true ∧ '=' ∈ word) ∨
        ∃ flag ∈ options.attached, startsWith flag word = true ∧ flag.length < word.length := by
  simp [holdsValue]

/-- A word begins a unit exactly if it is an option of one of the kinds. -/
theorem begins_iff {word : List Char} :
    (∃ more, options.IsUnit (word :: more)) ↔
      isOneOf options.bare word = true ∨ isOneOf options.valued word = true ∨
        options.holdsValue word = true := by
  constructor
  · rintro ⟨more, hunit⟩
    cases hunit with
    | bare hbare => exact .inl hbare
    | valued hvalued _ => exact .inr (.inl hvalued)
    | assigned hlong hequals => exact .inr (.inr (holdsValue_iff.2 (.inl ⟨hlong, hequals⟩)))
    | attached hflag hstarts hlength =>
      exact .inr (.inr (holdsValue_iff.2 (.inr ⟨_, hflag, hstarts, hlength⟩)))
  · intro h
    by_cases hbare : isOneOf options.bare word = true
    · exact ⟨[], .bare hbare⟩
    · rcases h with h | hvalued | hholds
      · exact absurd h hbare
      · exact ⟨[[]], .valued hvalued (eq_false_of_ne_true hbare)⟩
      · rcases holdsValue_iff.1 hholds with ⟨hlong, hequals⟩ | ⟨flag, hflag, hstarts, hlength⟩
        · exact ⟨[], .assigned hlong hequals⟩
        · exact ⟨[], .attached hflag hstarts hlength⟩

/-- Where the units end, and the subcommand that is found there. -/
inductive Stops (options : GlobalOptions) : List (List Char) → List Char → Prop where
  | nothing : Stops options [] []
  | unfinished {flag : List Char} : isOneOf options.valued flag = true → Stops options [flag] []
  | word {word : List Char} {rest : List (List Char)} : (∀ more, ¬ options.IsUnit (word :: more)) →
      Stops options (word :: rest) word

/-- **All arguments are units up to where the search stops.** -/
theorem exists_stops (options : GlobalOptions) (args : List (List Char)) :
    ∃ units rest, options.AreUnits units ∧ args = units.flatten ++ rest ∧
      options.Stops rest (options.subcommand args) := by
  have hpassed : ∀ {unit args : List (List Char)} {found : List Char}, options.IsUnit unit →
      (∃ units rest, options.AreUnits units ∧ args = units.flatten ++ rest ∧
        options.Stops rest found) →
      ∃ units rest, options.AreUnits units ∧ unit ++ args = units.flatten ++ rest ∧
        options.Stops rest found := by
    rintro unit args found hunit ⟨units, rest, hunits, rfl, hstops⟩
    refine ⟨unit :: units, rest, List.forall_mem_cons.2 ⟨hunit, hunits⟩, ?_, hstops⟩
    rw [List.flatten_cons, List.append_assoc]
  fun_induction options.subcommand args with
  | case1 => exact ⟨[], [], List.forall_mem_nil _, rfl, .nothing⟩
  | case2 word rest hbare ih => exact hpassed (.bare hbare) ih
  | case3 flag hbare hvalued => exact ⟨[], [flag], List.forall_mem_nil _, rfl, .unfinished hvalued⟩
  | case4 flag hbare hvalued value rest ih =>
    exact hpassed (.valued hvalued (eq_false_of_ne_true hbare)) ih
  | case5 word rest hbare hvalued hholds ih =>
    rcases holdsValue_iff.1 hholds with ⟨hlong, hequals⟩ | ⟨flag, hflag, hstarts, hlength⟩
    · exact hpassed (.assigned hlong hequals) ih
    · exact hpassed (.attached hflag hstarts hlength) ih
  | case6 word rest hbare hvalued hholds =>
    refine ⟨[], word :: rest, List.forall_mem_nil _, rfl, .word ?_⟩
    intro more hunit
    rcases begins_iff.1 ⟨more, hunit⟩ with h | h | h
    · exact hbare h
    · exact hvalued h
    · exact hholds h

/-! ## Units are passed over -/

/-- A word is an option of one kind only, and the empty word of none. -/
def isClear (options : GlobalOptions) : Bool :=
  options.valued.all (fun flag => !options.holdsValue flag.toList) &&
    !isOneOf options.bare [] && !isOneOf options.valued []

theorem not_valued_of_holdsValue (hclear : options.isClear = true) {word : List Char}
    (h : options.holdsValue word = true) : isOneOf options.valued word = false := by
  simp only [isClear, Bool.and_eq_true, List.all_eq_true, Bool.not_eq_true'] at hclear
  by_contra hvalued
  obtain ⟨flag, hflag, rfl⟩ := isOneOf_iff.1 (eq_true_of_ne_false hvalued)
  rw [hclear.1.1 flag hflag] at h
  cases h

theorem subcommand_of_holdsValue (hclear : options.isClear = true) {word : List Char}
    (h : options.holdsValue word = true) (rest : List (List Char)) :
    options.subcommand (word :: rest) = options.subcommand rest := by
  rw [subcommand_cons, not_valued_of_holdsValue hclear h, h, if_neg Bool.false_ne_true, if_pos rfl,
    ite_self]

/-- **A unit is passed over**, whatever stands behind it. -/
theorem IsUnit.subcommand_append (hclear : options.isClear = true) {unit : List (List Char)}
    (h : options.IsUnit unit) (rest : List (List Char)) :
    options.subcommand (unit ++ rest) = options.subcommand rest := by
  cases h with
  | bare hbare => rw [List.singleton_append, subcommand_cons, if_pos hbare]
  | valued hvalued hbare =>
    rw [List.cons_append, List.singleton_append, subcommand_cons, hbare, if_neg Bool.false_ne_true,
      if_pos hvalued, List.tail_cons]
  | assigned hlong hequals =>
    exact subcommand_of_holdsValue hclear (holdsValue_iff.2 (.inl ⟨hlong, hequals⟩)) rest
  | attached hflag hstarts hlength =>
    exact subcommand_of_holdsValue hclear
      (holdsValue_iff.2 (.inr ⟨_, hflag, hstarts, hlength⟩)) rest

theorem AreUnits.subcommand_append (hclear : options.isClear = true)
    {units : List (List (List Char))} (h : options.AreUnits units) (rest : List (List Char)) :
    options.subcommand (units.flatten ++ rest) = options.subcommand rest := by
  induction units with
  | nil => rfl
  | cons unit units ih =>
    obtain ⟨hunit, hunits⟩ := List.forall_mem_cons.1 h
    rw [List.flatten_cons, List.append_assoc, hunit.subcommand_append hclear, ih hunits]

/-- A word that begins no unit is the subcommand. -/
theorem subcommand_cons_of_begins_none {word : List Char}
    (h : ∀ more, ¬ options.IsUnit (word :: more)) (rest : List (List Char)) :
    options.subcommand (word :: rest) = word := by
  have hnone : ¬ ∃ more, options.IsUnit (word :: more) := fun ⟨more, hunit⟩ => h more hunit
  rw [begins_iff, not_or, not_or] at hnone
  rw [subcommand_cons, if_neg hnone.1, if_neg hnone.2.1, if_neg hnone.2.2]

theorem Finds.subcommand_eq (hclear : options.isClear = true) {args : List (List Char)}
    {word : List Char} (h : options.Finds args word) : options.subcommand args = word := by
  obtain ⟨units, rest, hunits, rfl, hbegins, -⟩ := h
  rw [hunits.subcommand_append hclear, subcommand_cons_of_begins_none hbegins]

/-- **The subcommand is the word behind the units.** -/
theorem subcommand_eq_iff (hclear : options.isClear = true) {args : List (List Char)}
    {word : List Char} (hne : word ≠ []) :
    options.subcommand args = word ↔ options.Finds args word := by
  refine ⟨fun h => ?_, fun h => h.subcommand_eq hclear⟩
  obtain ⟨units, rest, hunits, hargs, hstops⟩ := exists_stops options args
  rw [h] at hstops
  cases hstops with
  | nothing => exact absurd rfl hne
  | unfinished _ => exact absurd rfl hne
  | word hbegins =>
    refine ⟨units, _, hunits, hargs, hbegins, ?_⟩
    by_contra hvalued
    obtain ⟨more, hunit⟩ := begins_iff.2 (.inr (.inl (eq_true_of_ne_false hvalued)))
    exact hbegins more hunit

theorem subcommand_of_valued_last {flag : List Char} (h : isOneOf options.valued flag = true) :
    options.subcommand [flag] = [] := by
  have hnothing : options.subcommand [] = [] := rfl
  rw [subcommand_cons, if_pos h, List.tail_nil, hnothing, ite_self]

/-- The empty word begins no unit. -/
theorem begins_none_nil (hclear : options.isClear = true) (more : List (List Char)) :
    ¬ options.IsUnit ([] :: more) := by
  simp only [isClear, Bool.and_eq_true, Bool.not_eq_true'] at hclear
  intro hunit
  rcases begins_iff.1 ⟨more, hunit⟩ with h | h | h
  · rw [hclear.1.2] at h
    cases h
  · rw [hclear.2] at h
    cases h
  · rcases holdsValue_iff.1 h with ⟨-, hequals⟩ | ⟨flag, -, -, hlength⟩
    · cases hequals
    · exact absurd hlength (Nat.not_lt_zero _)

theorem subcommand_eq_nil_iff (hclear : options.isClear = true) {args : List (List Char)} :
    options.subcommand args = [] ↔ options.FindsNone args := by
  constructor
  · intro h
    obtain ⟨units, rest, hunits, hargs, hstops⟩ := exists_stops options args
    rw [h] at hstops
    refine ⟨units, rest, hunits, hargs, ?_⟩
    cases hstops with
    | nothing => exact .inl rfl
    | unfinished hvalued => exact .inr (.inl ⟨_, rfl, hvalued⟩)
    | word _ => exact .inr (.inr ⟨_, rfl⟩)
  · rintro ⟨units, rest, hunits, rfl, hrest⟩
    rw [hunits.subcommand_append hclear]
    rcases hrest with rfl | ⟨flag, rfl, hvalued⟩ | ⟨more, rfl⟩
    · rfl
    · exact subcommand_of_valued_last hvalued
    · exact subcommand_cons_of_begins_none (begins_none_nil hclear) more

end GlobalOptions

/-! ## The rules for subcommands -/

/-- The table of a program that takes options in front of its subcommand. -/
def Program.options? : Program → Option GlobalOptions
  | .git => some .git
  | .docker => some .docker
  | .kubectl => some .kubectl
  | .cargo => none

theorem Program.isClear_of_options? {program : Program} {options : GlobalOptions}
    (h : program.options? = some options) : options.isClear = true := by
  cases program with
  | git | docker | kubectl =>
    cases h
    decide
  | cargo => cases h

theorem Program.subcommand_of_options? {program : Program} {options : GlobalOptions}
    (h : program.options? = some options) (body : List Char) :
    program.subcommand body = options.subcommand (values body).tail := by
  cases program with
  | git | docker | kubectl =>
    cases h
    rfl
  | cargo => cases h

theorem afterAny?_name {c : Char} (hc : isSpace c = true) (name : String) (text : List Char) :
    (afterAny? [[name]] .space (name.toList ++ c :: text)).isSome = true := by
  have hword : afterWord? name.toList (name.toList ++ c :: text) = some (c :: text) :=
    afterWord?_eq_some_iff.2 rfl
  have hstop : Stop.space.allows (c :: text) = true := hc
  simp [afterAny?, afterPhrase?, hword, hstop]

/-- Behind the program's name, the rule asks for the subcommand and for what it leaves to others. -/
theorem Guard.accepts_subcommand_iff {c : Char} (hc : isSpace c = true) {program : Program}
    {allowed : List String} {except : List Phrase} {text : List Char} :
    (Guard.subcommand program allowed except).accepts (program.name.toList ++ c :: text) = true ↔
      isOneOf allowed (program.subcommand (program.name.toList ++ c :: text)) = true ∧
        afterAny? except .edge (program.name.toList ++ c :: text) = none := by
  rw [Guard.accepts, afterAny?_name hc, Bool.true_and, Bool.and_eq_true, Option.isNone_iff_eq_none]
  exact and_comm

theorem Program.isWord_name (program : Program) : IsWord program.name.toList := by
  cases program with
  | git | docker | kubectl | cargo => decide

/-- The program's name is the first word of a command, and the arguments are those behind it. -/
theorem Program.values_name_append (program : Program) {c : Char} (hc : isBlank c = true)
    (text : List Char) :
    values (program.name.toList ++ c :: text) = program.name.toList :: values text := by
  have hword := program.isWord_name
  have hvalue : unquoted .start program.name.toList = program.name.toList := by
    cases program with
    | git | docker | kubectl | cargo => rfl
  have hgap : IsGap [c] := .blank hc .nil
  have hwords : words (program.name.toList ++ c :: text) =
      words program.name.toList ++ words text :=
    words_append_gap hword.whole hgap (List.cons_ne_nil c []) text
  unfold values
  rw [hwords, hword.words_eq, List.map_append, List.map_singleton, Word.ofText, hvalue]
  rfl

/-- The word that a rule for subcommands asks for. -/
theorem Program.accepts_iff {program : Program} {options : GlobalOptions}
    (h : program.options? = some options) {allowed : List String}
    (hallowed : ∀ word ∈ allowed, word.toList ≠ []) {c : Char} (hc : isSpace c = true)
    {except : List Phrase} {text : List Char} :
    (Guard.subcommand program allowed except).accepts (program.name.toList ++ c :: text) = true ↔
      (∃ word ∈ allowed,
        options.Finds (values (program.name.toList ++ c :: text)).tail word.toList) ∧
      afterAny? except .edge (program.name.toList ++ c :: text) = none := by
  have hclear := Program.isClear_of_options? h
  rw [Guard.accepts_subcommand_iff hc, Program.subcommand_of_options? h, isOneOf_iff]
  refine and_congr_left' (exists_congr fun word => and_congr_right fun hword => ?_)
  rw [eq_comm]
  exact GlobalOptions.subcommand_eq_iff hclear (hallowed word hword)

/-- The commands that the rule for a program leaves to another one. -/
def Program.exceptions : Program → List Phrase
  | .docker => [["docker", "compose"]]
  | _ => []

theorem Program.exists_rule {program : Program} {options : GlobalOptions}
    (h : program.options? = some options) :
    ∃ rule allowed, ofLabel? program.name = some rule ∧
      rule.guard = .subcommand program allowed program.exceptions ∧
      ∀ word ∈ allowed, word.toList ≠ [] := by
  cases program with
  | git | docker | kubectl => exact ⟨_, _, rfl, rfl, by decide⟩
  | cargo => cases h

/-- **The subcommand of a command.** For each program with a table of options: units in front of
other words change nothing; the subcommand is the word behind the units, and it is missing exactly
if there is no such word. The rule for the program is about a command exactly if the word behind the
units is one of those that it allows, and the command is none of those that it leaves to others. -/
theorem subcommand_found_iff {program : Program} {options : GlobalOptions}
    (h : program.options? = some options) :
    (∀ units rest, options.AreUnits units →
      options.subcommand (units.flatten ++ rest) = options.subcommand rest) ∧
    (∀ args word, word ≠ [] → (options.subcommand args = word ↔ options.Finds args word)) ∧
    (∀ args, options.subcommand args = [] ↔ options.FindsNone args) ∧
    ∃ rule allowed, ofLabel? program.name = some rule ∧
      rule.guard = .subcommand program allowed program.exceptions ∧
      ∀ c text, isBlank c = true →
        (rule.guard.accepts (program.name.toList ++ c :: text) = true ↔
          (∃ word ∈ allowed, options.Finds (values text) word.toList) ∧
          afterAny? program.exceptions .edge (program.name.toList ++ c :: text) = none) := by
  have hclear := Program.isClear_of_options? h
  obtain ⟨rule, allowed, hrule, hguard, hallowed⟩ := Program.exists_rule h
  refine ⟨fun units rest hunits => hunits.subcommand_append hclear rest,
    fun args word hne => GlobalOptions.subcommand_eq_iff hclear hne,
    fun args => GlobalOptions.subcommand_eq_nil_iff hclear, rule, allowed, hrule, hguard, ?_⟩
  intro c text hc
  rw [hguard, Program.accepts_iff h hallowed (isSpace_of_isBlank hc),
    program.values_name_append hc, List.tail_cons]

/-- A value that looks like a subcommand, and one behind an equals sign. -/
theorem subcommand_found_iff_docker :
    Program.docker.options? = some .docker ∧
      GlobalOptions.docker.subcommand
        ["-H".toList, "ps".toList, "--log-level=debug".toList, "logs".toList] = "logs".toList ∧
      ∃ rule, ofLabel? "docker" = some rule ∧
        rule.guard.accepts "docker -H ps --log-level=debug logs".toList = true := by
  obtain ⟨-, hword, -, rule, allowed, hrule, hguard, haccepts⟩ :=
    subcommand_found_iff (show Program.docker.options? = some .docker from rfl)
  have hfinds : GlobalOptions.docker.Finds
      ["-H".toList, "ps".toList, "--log-level=debug".toList, "logs".toList] "logs".toList := by
    refine ⟨[["-H".toList, "ps".toList], ["--log-level=debug".toList]], [], ?_, rfl, ?_, by decide⟩
    · intro unit hunit
      simp only [List.mem_cons, List.not_mem_nil, or_false] at hunit
      rcases hunit with rfl | rfl
      · exact .valued (by decide) (by decide)
      · exact .assigned (by decide) (by decide)
    · intro more hunit
      have hbegins := GlobalOptions.begins_iff.1 ⟨more, hunit⟩
      revert hbegins
      decide
  refine ⟨rfl, (hword _ _ (by decide)).2 hfinds, rule, hrule, ?_⟩
  have hallowed : "logs" ∈ allowed := by
    have hsame : (ofLabel? Program.docker.name).map Rule.guard = some (.subcommand .docker
        ["ps", "images", "logs", "run", "build", "exec"] Program.docker.exceptions) := rfl
    rw [hrule, Option.map_some, hguard] at hsame
    cases hsame
    decide
  have hvalues : values "-H ps --log-level=debug logs".toList =
      ["-H".toList, "ps".toList, "--log-level=debug".toList, "logs".toList] := by decide +kernel
  rw [← hvalues] at hfinds
  exact (haccepts ' ' _ rfl).2 ⟨⟨"logs", hallowed, hfinds⟩, rfl⟩

end CompactShell.Rule
