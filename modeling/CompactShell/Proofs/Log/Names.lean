import CompactShell.Command.Statistics
import CompactShell.Proofs.Log.Growth

/-!
# Which log a printed name opens

The report prints the name of its log, and is asked for a session by name. So the printed name
should be a session of that same log. A name keeps everything when it is cleaned once more, but for
punctuation at its end (`name?_of_isSessionName`). Punctuation is trimmed before a long name is cut,
so a cut may leave some at the end: then the printed name opens another log or none. It opens its
own log exactly where the cut falls behind a letter or a digit (`printed_name_reopens_iff`).
-/

namespace CompactShell

open Host Text

namespace Log

/-! ## Names that are cleaned again -/

theorem isSpace_of_isSafe {c : Char} (h : isSafe c = true) : isSpace c = false := by
  simp only [isSafe, Bool.or_eq_true, decide_eq_true_eq] at h
  rcases h with ((h | rfl) | rfl) | rfl
  · exact not_covers_of_apart (by decide) (isAlphanum_iff.1 h)
  · decide
  · decide
  · decide

theorem replaceUnsafe_of_isSafe {text : List Char} (h : ∀ c ∈ text, isSafe c = true)
    (inRun : Bool) : replaceUnsafe inRun text = text := by
  induction text generalizing inRun with
  | nil => rfl
  | cons c text ih =>
    rw [replaceUnsafe, if_pos (h c (List.mem_cons_self ..)),
      ih fun d hd => h d (List.mem_cons_of_mem c hd)]

/-- A text without white space is trimmed of nothing. -/
theorem trim_of_not_isSpace {text : List Char} (h : ∀ c ∈ text, isSpace c = false) :
    trim text = text := by
  have hstart : trimStart text = text := by
    rw [trimStart, List.dropWhile_eq_self_iff]
    intro hpos hspace
    rw [h _ (List.getElem_mem hpos)] at hspace
    cases hspace
  have hend : text.rdropWhile isSpace = text := by
    rw [List.rdropWhile_eq_self_iff]
    intro hne hspace
    rw [h _ (List.getLast_mem hne)] at hspace
    cases hspace
  rw [trim, hstart]
  exact hend

/-- What a log is named for: it has one to 128 safe characters, and the first is no punctuation. -/
structure IsSessionName (name : List Char) : Prop where
  ne_nil : name ≠ []
  length_le : name.length ≤ maxLength
  isSafe : ∀ c ∈ name, isSafe c = true
  head : ∀ c ∈ name.head?, isPunctuation c = false

/-- The text that a session's identifier leaves when it is cleaned, before it is cut to its length. -/
def cleaned (session : List Char) : List Char :=
  trimPunctuation (replaceUnsafe false (trim session))

theorem name?_eq_some_iff {session name : List Char} :
    name? session = some name ↔ name = (cleaned session).take maxLength ∧ name ≠ [] := by
  unfold name?
  show (if ((cleaned session).take maxLength).isEmpty then none
    else some ((cleaned session).take maxLength)) = some name ↔ _
  split
  · rename_i hempty
    rw [List.isEmpty_iff] at hempty
    exact iff_of_false (fun h => by cases h) fun h => h.2 (h.1.trans hempty)
  · rename_i hne
    rw [List.isEmpty_iff] at hne
    rw [Option.some.injEq]
    constructor
    · rintro rfl
      exact ⟨rfl, hne⟩
    · exact fun h => h.1.symm

theorem isSessionName_of_name? {session name : List Char} (h : name? session = some name) :
    IsSessionName name := by
  obtain ⟨hname, hne⟩ := name?_eq_some_iff.1 h
  refine ⟨hne, ?_, fun c hc => isSafe_of_mem_name? h hc, fun c hc => ?_⟩
  · rw [hname]
    exact List.length_take_le ..
  · rw [hname, List.head?_take, if_neg (by decide)] at hc
    exact isPunctuation_head?_trimPunctuation hc

/-- **Cleaning a name again takes the punctuation off its end and changes nothing else.** -/
theorem name?_of_isSessionName {name : List Char} (h : IsSessionName name) :
    name? name = some (name.rdropWhile isPunctuation) := by
  obtain ⟨c, rest, rfl⟩ := List.exists_cons_of_ne_nil h.ne_nil
  have hc : isPunctuation c = false := h.head c rfl
  have hcleaned : cleaned (c :: rest) = (c :: rest).rdropWhile isPunctuation := by
    have htrim := trim_of_not_isSpace fun d hd => isSpace_of_isSafe (h.isSafe d hd)
    have hkept := replaceUnsafe_of_isSafe h.isSafe false
    rw [cleaned, htrim, hkept, trimPunctuation,
      List.dropWhile_cons_of_neg (by rw [hc]; exact Bool.false_ne_true)]
    rfl
  have hlength : (cleaned (c :: rest)).length ≤ maxLength := by
    rw [hcleaned]
    exact Nat.le_trans (List.rdropWhile_prefix isPunctuation _).length_le h.length_le
  refine name?_eq_some_iff.2 ⟨?_, ?_⟩
  · rw [List.take_of_length_le hlength, hcleaned]
  · -- the first character stands in the way of dropping them all
    intro hnil
    have hall := List.rdropWhile_eq_nil_iff.1 hnil c (List.mem_cons_self ..)
    rw [hc] at hall
    cases hall

/-! ## The cut -/

/-- The cut of the session's name falls behind no punctuation. -/
def IsCutCleanly (session : List Char) : Prop :=
  ∀ c ∈ (cleaned session)[maxLength - 1]?, isPunctuation c = false

theorem isPunctuation_getLast?_cleaned {session : List Char} {c : Char}
    (h : c ∈ (cleaned session).getLast?) : isPunctuation c = false := by
  have hself : (cleaned session).rdropWhile isPunctuation = cleaned session :=
    List.rdropWhile_idempotent isPunctuation _
  obtain ⟨hne, hlast⟩ := List.mem_getLast?_eq_getLast h
  rw [hlast]
  exact Bool.eq_false_iff.2 (List.rdropWhile_eq_self_iff.1 hself hne)

/-- A name ends in punctuation only where it was cut behind some. -/
theorem rdropWhile_name_eq_self_iff {session name : List Char} (h : name? session = some name) :
    name.rdropWhile isPunctuation = name ↔ IsCutCleanly session := by
  obtain ⟨hname, hne⟩ := name?_eq_some_iff.1 h
  have hlast : name.getLast? = (cleaned session)[maxLength - 1]?.or (cleaned session).getLast? := by
    rw [hname, List.getLast?_take, if_neg (by decide)]
  have hends : name.rdropWhile isPunctuation = name ↔
      ∀ c ∈ name.getLast?, isPunctuation c = false := by
    rw [List.rdropWhile_eq_self_iff]
    constructor
    · intro hself c hc
      obtain ⟨hne', rfl⟩ := List.mem_getLast?_eq_getLast hc
      exact Bool.eq_false_iff.2 (hself hne')
    · intro hall hne'
      exact Bool.eq_false_iff.1 (hall _ (List.getLast?_eq_some_getLast hne'))
  rw [hends, hlast, IsCutCleanly]
  cases hat : (cleaned session)[maxLength - 1]? with
  | some c => rfl
  | none =>
    -- a name that was not cut ends as the cleaned text does
    rw [Option.none_or]
    exact iff_of_true (fun c hc => isPunctuation_getLast?_cleaned hc) fun c hc => by cases hc

/-! ## Printed names -/

/-- The report prints the name of a log without its extension. -/
theorem stem_append_extension {name : List Char} (hne : name ≠ []) :
    Path.stem (name ++ extension) = name := by
  have hreverse : (name ++ extension).reverse = "lnosj".toList ++ '.' :: name.reverse := by
    rw [List.reverse_append]
    rfl
  have hending : ((name ++ extension).reverse.takeWhile (· != '.')).length = 5 := by
    rw [hreverse]
    rfl
  have hlength : (name ++ extension).length = name.length + 6 := List.length_append
  have hpos : 0 < name.length := List.length_pos_iff.2 hne
  have hdotted : ¬ name.length + 6 ≤ 5 + 1 := by omega
  have hlead : name.length + 6 - 5 - 1 = name.length := by omega
  unfold Path.stem
  simp only [hending, hlength, hlead, decide_eq_false hdotted]
  exact List.take_left

/-- The log that a printed name opens. -/
theorem fileName?_stem {session : List Char} {file : Name} (h : fileName? session = some file) :
    fileName? (Path.stem file) =
      some ((Path.stem file).rdropWhile isPunctuation ++ extension) := by
  obtain ⟨name, hname, rfl⟩ := Option.map_eq_some_iff.1 h
  have hsession := isSessionName_of_name? hname
  rw [stem_append_extension hsession.ne_nil, fileName?, name?_of_isSessionName hsession]
  rfl

theorem fileName?_stem_eq_iff {session : List Char} {file : Name}
    (h : fileName? session = some file) :
    fileName? (Path.stem file) = some file ↔ IsCutCleanly session := by
  rw [fileName?_stem h]
  obtain ⟨name, hname, rfl⟩ := Option.map_eq_some_iff.1 h
  rw [stem_append_extension (isSessionName_of_name? hname).ne_nil, Option.some.injEq,
    List.append_left_inj, rdropWhile_name_eq_self_iff hname]

end Log

namespace Command.Statistics

open Log

variable {host : Host} {session : List Char} {file : Name}

/-- The log that some arguments ask for a report on, if it is there. -/
def reported? (host : Host) (arguments : List (List Char)) : Option Name :=
  match Arguments.read arguments with
  | .ok (.report session) => logFile? host session
  | _ => none

/-- What is printed of a log that is there. -/
def outcomeOn (host : Host) (file : Name) : Outcome :=
  match reportOn host file with
  | .ok report => ⟨report, "", .ok 0⟩
  | .error failure => ⟨"", "", .error failure⟩

theorem run_of_reported? {arguments : List (List Char)} (h : reported? host arguments = some file) :
    run host arguments = outcomeOn host file := by
  unfold reported? at h
  unfold run
  split at h
  · rename_i asked hread
    rw [hread]
    dsimp only
    rw [h]
    rfl
  · cases h

/-- A name is no option. -/
theorem ofText_of_isSessionName {name : List Char} (h : IsSessionName name) :
    Arguments.Argument.ofText name = .positional := by
  obtain ⟨c, rest, rfl⟩ := List.exists_cons_of_ne_nil h.ne_nil
  have hdash : startsWith "-" (c :: rest) = false := by
    refine Bool.eq_false_iff.2 fun hstart => ?_
    obtain ⟨more, hmore⟩ := startsWith_iff.1 hstart
    cases hmore
    cases h.head '-' rfl
  unfold Arguments.Argument.ofText
  simp only [hdash, Bool.not_false, Bool.or_true, Bool.true_or, if_true]

theorem read_of_isSessionName {name : List Char} (h : IsSessionName name) :
    Arguments.read [name] = .ok (.report (some name)) := by
  have hdashes : name ≠ "--".toList := by
    rintro rfl
    cases h.head '-' rfl
  rw [Arguments.read, Arguments.readFrom, if_neg hdashes, ofText_of_isSessionName h]
  rfl

theorem reported?_stem (hfile : fileName? session = some file) :
    reported? host [Path.stem file] =
      (fileName? (Path.stem file)).filter fun file => (host.find? (path host file)).isSome := by
  obtain ⟨name, hname, rfl⟩ := Option.map_eq_some_iff.1 hfile
  have hsession := isSessionName_of_name? hname
  rw [stem_append_extension hsession.ne_nil, reported?, read_of_isSessionName hsession]
  obtain ⟨c, rest, rfl⟩ := List.exists_cons_of_ne_nil hsession.ne_nil
  rfl

/-- **When a printed name opens its log again.** The name that a report prints is cleaned like any
session, and loses the punctuation at its end. So it opens the log that it was printed for exactly
if the name was not cut behind punctuation, and then the report is the same. -/
theorem printed_name_reopens_iff (hfile : fileName? session = some file)
    (hthere : (host.find? (path host file)).isSome = true) :
    fileName? (Path.stem file) = some ((Path.stem file).rdropWhile isPunctuation ++ extension) ∧
      (fileName? (Path.stem file) = some file ↔ IsCutCleanly session) ∧
      (reported? host [Path.stem file] = some file ↔ IsCutCleanly session) ∧
      (IsCutCleanly session → ∀ arguments, reported? host arguments = some file →
        run host [Path.stem file] = run host arguments) := by
  have hname := fileName?_stem_eq_iff hfile
  have hreported : reported? host [Path.stem file] = some file ↔ IsCutCleanly session := by
    rw [reported?_stem hfile, Option.filter_eq_some_iff, hname]
    exact and_iff_left hthere
  refine ⟨fileName?_stem hfile, hname, hreported, ?_⟩
  intro hclean arguments harguments
  rw [run_of_reported? (hreported.2 hclean), run_of_reported? harguments]

/-- A host with the log of one session. -/
def loggedHost (file : Name) : Host :=
  { files := ⟨[([Config.storeName], .directory 0),
      ([Config.storeName, "logs".toList], .directory 0),
      ([Config.storeName, "logs".toList, file], .file [] 0)]⟩
    home := [], current := [], environment := [], hasTool := false, accounts := [], now := 0
    rooms := .unlimited }

/-- The report on the last session is printed again for the name that it prints. -/
theorem printed_name_reopens_iff_short :
    run (loggedHost "a_b.jsonl".toList) ["a_b".toList] =
      run (loggedHost "a_b.jsonl".toList) [] := by
  have hfile : fileName? "../a b.".toList = some "a_b.jsonl".toList := by decide
  have hthere : ((loggedHost "a_b.jsonl".toList).find?
      (path (loggedHost "a_b.jsonl".toList) "a_b.jsonl".toList)).isSome = true := by decide
  have hclean : IsCutCleanly "../a b.".toList := fun c hc => by cases hc
  exact (printed_name_reopens_iff hfile hthere).2.2.2 hclean [] (by decide)

/-- An identifier whose name is cut behind an underscore. -/
def longSession : List Char :=
  List.replicate 127 'a' ++ ['_', 'b']

/-- The name that is printed for a long session is not the session of its log, and no report is
found for it. -/
theorem cut_name_not_reopened :
    fileName? longSession = some (List.replicate 127 'a' ++ '_' :: extension) ∧
      Path.stem (List.replicate 127 'a' ++ '_' :: extension) = List.replicate 127 'a' ++ ['_'] ∧
      fileName? (List.replicate 127 'a' ++ ['_']) = some (List.replicate 127 'a' ++ extension) ∧
      reported? (loggedHost (List.replicate 127 'a' ++ '_' :: extension)) [] =
        some (List.replicate 127 'a' ++ '_' :: extension) ∧
      reported? (loggedHost (List.replicate 127 'a' ++ '_' :: extension))
        [List.replicate 127 'a' ++ ['_']] = none := by
  decide +kernel

end Command.Statistics

end CompactShell
