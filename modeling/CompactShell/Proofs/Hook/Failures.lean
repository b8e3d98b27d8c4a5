import CompactShell.Proofs.Config.Readings
import CompactShell.Proofs.Hook.Answers

/-!
# When the hook fails

A missing file, a directory in the way, a configuration that is wrong and a log with broken lines
all count as nothing. Some things do not: bytes that are no UTF-8, a JSON text that is refused for
the digits of a whole number or for how deep it is, and a directory whose name is too long to look
for a configuration in it. The hook fails exactly where it meets one of these (`isAnswer_run_iff`):
in the event, in a configuration, or in the log of a session that the compact tool is missing for.
Everything else is answered.
-/

namespace CompactShell

open Json Text

/-! ## What cannot be read -/

/-- The text is refused: a whole number in it has too many digits, or there is no room for it. -/
def Json.IsRefused (room : Room) (text : List Char) : Prop :=
  ∃ refusal, Json.readWithin room text = .error (.refused refusal)

/-- The bytes are no UTF-8, or one of the pieces of their text is refused. -/
def IsUnreadable (room : Room) (pieces : List Char → List (List Char)) (bytes : List UInt8) :
    Prop :=
  (∃ fault, Utf8.decode bytes = .error fault) ∨
    ∃ text, Host.textOf bytes = .ok text ∧
      ∃ piece ∈ pieces text, isWhite piece = false ∧ IsRefused room piece

/-- A file that cannot be read stands at a path. -/
def Host.HasUnreadable (host : Host) (room : Room) (pieces : List Char → List (List Char))
    (path : Path) : Prop :=
  ∃ bytes changed, host.find? path = some (.file bytes changed) ∧ IsUnreadable room pieces bytes

/-- A configuration is one JSON text. -/
abbrev Config.pieces (text : List Char) : List (List Char) := [text]

/-- A log has a JSON text a line. -/
abbrev Log.pieces (text : List Char) : List (List Char) := splitAtBreaks text

/-- The configuration at a path cannot be read: the path is too long, or a file that cannot be read
stands there. -/
def Config.IsUnreadableAt (host : Host) (path : Host.Path) : Prop :=
  host.isTooLong path = true ∨ host.HasUnreadable host.rooms.config pieces path

/-- It ended in a failure. -/
def IsFailure {α : Type} (result : Except Failure α) : Prop :=
  ∃ failure, result = .error failure

theorem isFailure_error {α : Type} (failure : Failure) :
    IsFailure (.error failure : Except Failure α) := ⟨failure, rfl⟩

theorem not_isFailure_ok {α : Type} (a : α) : ¬ IsFailure (.ok a) := by
  rintro ⟨failure, h⟩
  cases h

theorem isFailure_map {α β : Type} (f : α → β) (result : Except Failure α) :
    IsFailure (result.map f) ↔ IsFailure result := by
  cases result with
  | error failure => exact iff_of_true (isFailure_error _) (isFailure_error _)
  | ok a => exact iff_of_false (not_isFailure_ok _) (not_isFailure_ok _)

/-- A step fails if what it starts with fails, or what it goes on with. -/
theorem isFailure_bind {α β : Type} (result : Except Failure α) (next : α → Except Failure β) :
    IsFailure (result >>= next) ↔
      IsFailure result ∨ ∃ a, result = .ok a ∧ IsFailure (next a) := by
  cases result with
  | error failure =>
    exact iff_of_true (isFailure_error _) (.inl (isFailure_error _))
  | ok a =>
    constructor
    · exact fun h => .inr ⟨a, rfl, h⟩
    · rintro (h | ⟨b, hb, h⟩)
      · exact absurd h (not_isFailure_ok a)
      · cases hb
        exact h

/-- Where it does not matter what a step goes on with, it fails if either part does. -/
theorem isFailure_bind_of {α β : Type} {result : Except Failure α} {next : α → Except Failure β}
    {p : Prop} (h : ∀ a, IsFailure (next a) ↔ p) :
    IsFailure (result >>= next) ↔ IsFailure result ∨ p := by
  cases result with
  | error failure => exact iff_of_true (isFailure_error _) (.inl (isFailure_error _))
  | ok a =>
    refine (h a).trans ⟨.inr, ?_⟩
    rintro (h | h)
    · exact absurd h (not_isFailure_ok a)
    · exact h

theorem isFailure_textOf (bytes : List UInt8) :
    IsFailure (Host.textOf bytes) ↔ ∃ fault, Utf8.decode bytes = .error fault := by
  unfold Host.textOf
  cases Utf8.decode bytes with
  | error fault => exact iff_of_true (isFailure_error _) ⟨fault, rfl⟩
  | ok text => exact iff_of_false (not_isFailure_ok _) fun ⟨fault, h⟩ => by cases h

/-- What goes on with the text of a file fails on what cannot be read. -/
theorem isFailure_contents {α : Type} {host : Host} {path : Host.Path} {room : Room}
    {pieces : List Char → List (List Char)} {next : Host.Contents → Except Failure α}
    (hmissing : ¬ IsFailure (next .missing)) (hdirectory : ¬ IsFailure (next .directory))
    (htext : ∀ text, IsFailure (next (.text text)) ↔
      ∃ piece ∈ pieces text, isWhite piece = false ∧ IsRefused room piece) :
    IsFailure (host.contents path >>= next) ↔ host.HasUnreadable room pieces path := by
  rw [isFailure_bind, Host.HasUnreadable, Host.contents]
  cases host.find? path with
  | none =>
    refine iff_of_false ?_ ?_
    · rintro (h | ⟨a, ha, h⟩)
      · exact not_isFailure_ok _ h
      · cases ha
        exact hmissing h
    · rintro ⟨bytes, changed, h, -⟩
      cases h
  | some node =>
    cases node with
    | directory changed =>
      refine iff_of_false ?_ ?_
      · rintro (h | ⟨a, ha, h⟩)
        · exact not_isFailure_ok _ h
        · cases ha
          exact hdirectory h
      · rintro ⟨bytes, changed, h, -⟩
        cases h
    | file bytes changed =>
      dsimp only
      rw [isFailure_map, isFailure_textOf]
      constructor
      · rintro (h | ⟨a, ha, h⟩)
        · exact ⟨bytes, changed, rfl, .inl h⟩
        · obtain ⟨text, hread, rfl⟩ := map_ok ha
          exact ⟨bytes, changed, rfl, .inr ⟨text, hread, (htext text).1 h⟩⟩
      · rintro ⟨_, _, h, hunreadable⟩
        cases h
        rcases hunreadable with h | ⟨text, hread, h⟩
        · exact .inl h
        · exact .inr ⟨.text text, by rw [hread]; rfl, (htext text).2 h⟩

/-- A path that is not too long is looked up. -/
theorem Host.contentsIfThere_eq {host : Host} {path : Path} (h : ¬ host.isTooLong path = true) :
    host.contentsIfThere path = host.contents path := by
  rw [contentsIfThere, isThere?, if_neg h, contents]
  cases host.find? path with
  | none => rfl
  | some node => rfl

/-! ## Configurations -/

namespace Config

theorem isFailure_fromText? (room : Room) (text : List Char) :
    IsFailure (fromText? room text) ↔
      ∃ piece ∈ pieces text, isWhite piece = false ∧ IsRefused room piece := by
  simp only [pieces, List.mem_singleton, exists_eq_left]
  have hread : ∀ {v}, readWithin room text = .ok v → ¬ IsRefused room text := by
    rintro v hread ⟨refusal, hrefused⟩
    rw [hread] at hrefused
    cases hrefused
  unfold fromText?
  split
  · rename_i hwhite
    exact iff_of_false (not_isFailure_ok _) fun h => by rw [hwhite] at h; cases h.1
  · rename_i hwhite
    split
    · rename_i members hobject
      refine iff_of_false ?_ fun h => hread hobject h.2
      split
      · exact not_isFailure_ok _
      · exact not_isFailure_ok _
    · rename_i hother
      exact iff_of_false (not_isFailure_ok _) fun h => hread hother h.2
    · rename_i hmalformed
      refine iff_of_false (not_isFailure_ok _) ?_
      rintro ⟨-, refusal, hrefused⟩
      rw [hmalformed] at hrefused
      cases hrefused
    · rename_i refusal hrefused
      exact iff_of_true (isFailure_error _) ⟨Bool.eq_false_iff.2 hwhite, refusal, hrefused⟩

theorem isFailure_load? (host : Host) (path : Host.Path) :
    IsFailure (load? host path) ↔ IsUnreadableAt host path := by
  rw [load?_eq, IsUnreadableAt]
  by_cases hlong : host.isTooLong path = true
  · refine iff_of_true ?_ (.inl hlong)
    rw [Host.contentsIfThere, Host.isThere?, if_pos hlong]
    exact isFailure_error _
  · rw [Host.contentsIfThere_eq hlong]
    refine (isFailure_contents ?_ ?_ ?_).trans ⟨.inr, fun h => h.resolve_left hlong⟩
    · exact not_isFailure_ok _
    · exact not_isFailure_ok _
    · exact isFailure_fromText? host.rooms.config

/-- **The configuration in force is known unless a file of it cannot be read.** -/
theorem isFailure_inForce? (host : Host) {directory : Option (List Char)}
    (hdirectory : directory ≠ some []) :
    IsFailure (inForce? host directory) ↔
      IsUnreadableAt host (userPath host) ∨
        ∃ text, directory = some text ∧
          IsUnreadableAt host (projectPath (Host.Path.ofText text)) := by
  cases directory with
  | none =>
    rw [inForce?_none, isFailure_map, isFailure_load?]
    refine ⟨.inl, ?_⟩
    rintro (h | ⟨text, h, -⟩)
    · exact h
    · cases h
  | some text =>
    have htext : text ≠ [] := fun h => hdirectory (congrArg some h)
    rw [inForce?_some host htext, ← isFailure_load?]
    simp only [Option.some.injEq, exists_eq_left', ← isFailure_load?]
    exact isFailure_bind_of fun user => isFailure_map _ _

end Config

/-! ## Logs -/

namespace Log

theorem isFailure_entriesOn (room : Room) (lines : List (List Char)) :
    IsFailure (entriesOn room lines) ↔
      ∃ line ∈ lines, isWhite line = false ∧ IsRefused room line := by
  induction lines with
  | nil =>
    refine iff_of_false (not_isFailure_ok _) ?_
    rintro ⟨line, hline, -⟩
    cases hline
  | cons line lines ih =>
    rw [List.exists_mem_cons_iff, ← ih, entriesOn]
    split
    · rename_i hwhite
      refine ⟨.inr, ?_⟩
      rintro (⟨hnot, -⟩ | h)
      · rw [hwhite] at hnot
        cases hnot
      · exact h
    · rename_i hwhite
      split
      · rename_i refusal hread
        exact iff_of_true (isFailure_error _) (.inl ⟨Bool.eq_false_iff.2 hwhite, refusal, hread⟩)
      · rename_i members hread
        rw [isFailure_map]
        refine ⟨.inr, ?_⟩
        rintro (⟨-, refusal, hrefused⟩ | h)
        · rw [hread] at hrefused
          cases hrefused
        · exact h
      · rename_i hrefuses _
        refine ⟨.inr, ?_⟩
        rintro (⟨-, refusal, hrefused⟩ | h)
        · exact absurd hrefused (hrefuses refusal)
        · exact h

theorem isFailure_isWarned (host : Host) (path : Host.Path) :
    IsFailure (isWarned host path) ↔ host.HasUnreadable host.rooms.log pieces path := by
  have hentries : IsFailure (entriesAt host path) ↔
      host.HasUnreadable host.rooms.log pieces path :=
    isFailure_contents (not_isFailure_ok _) (not_isFailure_ok _) fun text =>
      isFailure_entriesOn host.rooms.log (splitAtBreaks text)
  rw [isWarned, isFailure_bind, hentries]
  refine ⟨?_, .inl⟩
  rintro (h | ⟨entries, -, h⟩)
  · exact h
  · exact absurd h (not_isFailure_ok _)

end Log

/-! ## Runs -/

namespace Command

/-- It ended well, and printed nothing or one JSON object on a line of its own. The line is read as
events are: `NaN` and the two infinities are values, though RFC 8259 has none of them. An event that
holds one of them is answered with a line that holds it too. -/
def Outcome.IsAnswer (outcome : Outcome) : Prop :=
  outcome.ending = .ok 0 ∧
    (outcome.output = "" ∨ ∃ line members, outcome.output = String.ofList (line ++ ['\n']) ∧
      '\n' ∉ line ∧ Json.read line = .ok (.obj members))

namespace ToolCall

theorem isFailure_ofText? (room : Room) (text : List Char) :
    IsFailure (ofText? room text) ↔ IsRefused room text := by
  unfold ofText?
  split
  · rename_i members hread
    refine iff_of_false (not_isFailure_ok _) ?_
    rintro ⟨refusal, hrefused⟩
    rw [hread] at hrefused
    cases hrefused
  · rename_i refusal hread
    exact iff_of_true (isFailure_error _) ⟨refusal, hread⟩
  · rename_i hrefuses
    exact iff_of_false (not_isFailure_ok _) fun ⟨refusal, hrefused⟩ => hrefuses refusal hrefused

theorem trim_ne_nil {text : List Char} (h : isWhite text = false) : trim text ≠ [] := by
  intro hnil
  rw [trim, trimEnd, List.reverse_eq_nil_iff, List.dropWhile_eq_nil_iff] at hnil
  have hall : ∀ c ∈ text, isSpace c = true := by
    intro c hc
    rw [← List.takeWhile_append_dropWhile (p := isSpace) (l := text), List.mem_append] at hc
    rcases hc with hc | hc
    · exact List.mem_takeWhile_imp hc
    · exact hnil c (List.mem_reverse.2 hc)
  rw [isWhite, List.all_eq_true.2 hall] at h
  cases h

theorem directory_ne_nil {room : Room} {text : List Char} {call : ToolCall}
    (h : ofText? room text = .ok (some call)) : call.directory ≠ some [] := by
  have hvalue : ∀ value, directoryOf value ≠ some [] := by
    intro value hnil
    unfold directoryOf at hnil
    split at hnil
    · split at hnil
      · cases hnil
      · rename_i hwhite
        exact trim_ne_nil (Bool.eq_false_iff.2 hwhite) (Option.some.inj hnil)
    · cases hnil
  obtain ⟨members, -, hcall⟩ := ofText?_eq_some h
  rw [directory_eq hcall]
  exact hvalue _

end ToolCall

namespace Hook

variable {host : Host} {call : ToolCall}

theorem isFailure_warn (host : Host) (time : String) (log : Option Host.Name) (call : ToolCall)
    (warning : String) :
    IsFailure (warn host time log call warning) ↔
      ∃ file, log = some file ∧
        host.HasUnreadable host.rooms.log Log.pieces (Log.path host file) := by
  cases log with
  | none =>
    refine iff_of_false (not_isFailure_ok _) ?_
    rintro ⟨file, h, -⟩
    cases h
  | some file =>
    simp only [Option.some.injEq, exists_eq_left', ← Log.isFailure_isWarned]
    rw [warn, isFailure_bind]
    refine ⟨?_, .inl⟩
    rintro (h | ⟨isWarned, -, h⟩)
    · exact h
    · split at h
      · exact absurd h (not_isFailure_ok _)
      · exact absurd h (not_isFailure_ok _)

/-- Once the configuration is known, only the log of a warning is read. -/
theorem isFailure_answer_of_inForce? {config : Option Config}
    (hconfig : Config.inForce? host call.directory = .ok config) (time : String) :
    IsFailure (answer host time call) ↔
      Config.isRewriting host config = true ∧ host.hasTool = false ∧
        ∃ file, call.log? = some file ∧
          host.HasUnreadable host.rooms.log Log.pieces (Log.path host file) := by
  rw [answer, hconfig]
  dsimp only [bind, Except.bind]
  cases hrewriting : Config.isRewriting host config with
  | false => exact iff_of_false (not_isFailure_ok _) fun h => by cases h.1
  | true =>
    rw [Bool.not_true, if_neg Bool.false_ne_true]
    cases htool : host.hasTool with
    | false =>
      have hdue : (Session.new (Config.rewriter host config) false true).warning? =
          (some Session.missingToolWarning,
            { Session.new (Config.rewriter host config) false true with warned := true }) := rfl
      rw [hdue]
      dsimp only
      rw [isFailure_warn]
      exact ⟨fun h => ⟨rfl, rfl, h⟩, fun h => h.2.2⟩
    | true =>
      refine iff_of_false ?_ fun h => by cases h.2.1
      have hquiet : (Session.new (Config.rewriter host config) true true).warning? =
          (none, Session.new (Config.rewriter host config) true true) := rfl
      rw [hquiet]
      dsimp only
      split
      · exact not_isFailure_ok _
      · exact not_isFailure_ok _

theorem isFailure_answer (host : Host) (time : String) (call : ToolCall) :
    IsFailure (answer host time call) ↔
      IsFailure (Config.inForce? host call.directory) ∨
        ∃ config, Config.inForce? host call.directory = .ok config ∧
          Config.isRewriting host config = true ∧ host.hasTool = false ∧
          ∃ file, call.log? = some file ∧
            host.HasUnreadable host.rooms.log Log.pieces (Log.path host file) := by
  cases hconfig : Config.inForce? host call.directory with
  | error failure =>
    refine iff_of_true ?_ (.inl (isFailure_error _))
    rw [answer, hconfig]
    exact isFailure_error _
  | ok config =>
    rw [isFailure_answer_of_inForce? hconfig]
    simp only [Except.ok.injEq, exists_eq_left', not_isFailure_ok, false_or]

/-- A run ends in a failure of its event, or of its answer. -/
theorem isFailure_run (host : Host) (time : String) (text : List Char) :
    IsFailure (run host time text).1.ending ↔
      IsRefused host.rooms.event text ∨
        ∃ call, ToolCall.ofText? host.rooms.event text = .ok (some call) ∧
          IsFailure (answer host time call) := by
  rw [← ToolCall.isFailure_ofText?, run]
  cases hreads : ToolCall.ofText? host.rooms.event text with
  | error failure => exact iff_of_true (isFailure_error _) (.inl (isFailure_error _))
  | ok call? =>
    cases call? with
    | none =>
      refine iff_of_false (not_isFailure_ok _) ?_
      rintro (h | ⟨call, h, -⟩)
      · exact not_isFailure_ok _ h
      · cases h
    | some call =>
      simp only [Except.ok.injEq, Option.some.injEq, exists_eq_left', not_isFailure_ok, false_or]
      dsimp only [bind, Except.bind]
      cases answer host time call with
      | error failure => exact iff_of_true (isFailure_error _) (isFailure_error _)
      | ok result => exact iff_of_false (not_isFailure_ok _) (not_isFailure_ok _)

/-- A run that ends in no failure gives an answer. -/
theorem isAnswer_run_of_not_isFailure {time : String} {text : List Char}
    (h : ¬ IsFailure (run host time text).1.ending) : (run host time text).1.IsAnswer := by
  have hsplit := (not_congr (isFailure_run host time text)).1 h
  rw [not_or, not_exists] at hsplit
  cases hreads : ToolCall.ofText? host.rooms.event text with
  | error failure => exact absurd ((ToolCall.isFailure_ofText? _ text).1 ⟨failure, hreads⟩) hsplit.1
  | ok call? =>
    cases call? with
    | none =>
      rw [run, hreads]
      exact ⟨rfl, .inl rfl⟩
    | some call =>
      cases hanswer : answer host time call with
      | error failure => exact absurd ⟨hreads, failure, hanswer⟩ (hsplit.2 call)
      | ok result =>
        rw [run_of_answer hreads hanswer]
        exact ⟨rfl, exists_line_of_answer hreads hanswer⟩

/-- **The hook answers every event, whatever stands in its files, but for what cannot be read.** It
fails exactly if the event is refused, if the configuration of the user or of the project cannot be
read, or if the compact tool is missing while rewriting is on and the session's log cannot be read.
An answer may hold `NaN` and the infinities where the event does. -/
theorem isAnswer_run_iff (host : Host) (time : String) (text : List Char) :
    (run host time text).1.IsAnswer ↔
      ¬ (IsRefused host.rooms.event text ∨
        ∃ call, ToolCall.ofText? host.rooms.event text = .ok (some call) ∧
          (Config.IsUnreadableAt host (Config.userPath host) ∨
            (∃ directory, call.directory = some directory ∧
              Config.IsUnreadableAt host (Config.projectPath (Host.Path.ofText directory))) ∨
            ∃ config, Config.inForce? host call.directory = .ok config ∧
              Config.isRewriting host config = true ∧ host.hasTool = false ∧
              ∃ file, call.log? = some file ∧
                host.HasUnreadable host.rooms.log Log.pieces (Log.path host file))) := by
  have hanswers : (run host time text).1.IsAnswer ↔
      ¬ IsFailure (run host time text).1.ending :=
    ⟨fun h hfails => not_isFailure_ok 0 (h.1 ▸ hfails), isAnswer_run_of_not_isFailure⟩
  rw [hanswers, isFailure_run]
  refine not_congr (or_congr_right (exists_congr fun call => and_congr_right fun hreads => ?_))
  rw [isFailure_answer, Config.isFailure_inForce? host (ToolCall.directory_ne_nil hreads),
    or_assoc]

/-- No configuration can be looked for in a directory with a name of 256 bytes. -/
example : Config.IsUnreadableAt toolHost
    (Config.projectPath (Host.Path.ofText ('/' :: List.replicate 256 'a'))) :=
  .inl (by decide +kernel)

/-- A user's configuration of one byte that starts no character. -/
def brokenConfigHost : Host :=
  { toolHost with
    files := ⟨[(["home".toList], .directory 0),
      (["home".toList, "user".toList], .directory 0),
      (["home".toList, "user".toList, Config.storeName], .directory 0),
      (["home".toList, "user".toList, Config.storeName, "config.json".toList],
        .file [0xFF] 0)]⟩ }

theorem broken_config_fails :
    ¬ (run brokenConfigHost "" (write (.obj statusEvent))).1.IsAnswer := by
  have hreads : ToolCall.ofText? none (write (.obj statusEvent)) = .ok (some statusCall) :=
    ToolCall.ofText?_of_readWithin (readWithin_write isExact_statusEvent (Room.holds_none _))
  have hbroken : Config.IsUnreadableAt brokenConfigHost (Config.userPath brokenConfigHost) :=
    .inr ⟨[0xFF], 0, by decide +kernel, .inl ⟨_, rfl⟩⟩
  have hfails : IsFailure (answer brokenConfigHost "" statusCall) :=
    (isFailure_answer ..).2 (.inl ((Config.isFailure_inForce? _ (by decide)).2 (.inl hbroken)))
  intro h
  have hended := (isFailure_run brokenConfigHost "" _).2 (.inr ⟨statusCall, hreads, hfails⟩)
  rw [h.1] at hended
  exact not_isFailure_ok 0 hended

end Hook

end Command

end CompactShell
