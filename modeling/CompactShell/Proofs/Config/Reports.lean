import CompactShell.Command.Verification
import CompactShell.Proofs.Config.Readings
import CompactShell.Proofs.Hook.Answers
import CompactShell.Proofs.Host.Paths
import Mathlib.Data.Fintype.Option

/-!
# What the check of configurations reports

The check and the hook read the same files, each in its own way. The path that the check is given as
a text leads to the place that the hook looks at (`checkGiven_ofLocation`), so each file that is
there gets one block of lines, and the block says what the hook makes of the file (`Tells`). No two
configurations have the same lines (`settingLines_injective`). The settings in effect are worked out
from the configuration alone, and they are those of the rewriter that the hook uses in the current
directory (`effectLines_eq`, `check_agrees_with_hook`).
-/

namespace CompactShell.Command.Verification

open Config Host Json Log Text

variable {host : Host} {config : Config}

/-! ## Lines of settings -/

/-- The lines of the switches that are set. -/
def switchLines (config : Config) : List String :=
  config.settings.map fun (name, value) => s!"  {name}: {value}"

/-- The lines of the disabled rules. -/
def ruleLines (labels : List String) : List String :=
  if labels.isEmpty then ["  Disabled rules: (none)"] else "  Disabled rules:" :: numbered labels

theorem settingLines_eq (config : Config) :
    settingLines config = switchLines config ++ ruleLines config.disabledRules := rfl

theorem numbered_injective : Function.Injective numbered := by
  intro first second h
  have hlength := congrArg List.length h
  rw [numbered, numbered, List.length_mapIdx, List.length_mapIdx] at hlength
  refine List.ext_getElem hlength fun i hfirst hsecond => ?_
  have hline := congrArg (fun lines => lines[i]?) h
  dsimp only [numbered] at hline
  rw [List.getElem?_mapIdx, List.getElem?_mapIdx, List.getElem?_eq_getElem hfirst,
    List.getElem?_eq_getElem hsecond, Option.map_some, Option.map_some, Option.some.injEq] at hline
  exact (String.append_right_inj _).1 hline

theorem ruleLines_injective : Function.Injective ruleLines := by
  intro first second h
  have hfront : ∀ lines, "  Disabled rules: (none)" :: [] ≠ "  Disabled rules:" :: lines := by
    intro lines heq
    exact absurd (List.cons.inj heq).1 (by decide)
  unfold ruleLines at h
  split at h
  · rename_i hfirst
    split at h
    · rename_i hsecond
      rw [List.isEmpty_iff.1 hfirst, List.isEmpty_iff.1 hsecond]
    · exact absurd h (hfront _)
  · split at h
    · exact absurd h.symm (hfront _)
    · exact numbered_injective (List.cons.inj h).2

theorem switches_of_switchLines_eq {other : Config} (h : switchLines config = switchLines other) :
    config.enabled = other.enabled ∧ config.throughOperators = other.throughOperators := by
  have hswitches : ∀ enabled throughOperators enabled' throughOperators' : Option Bool,
      switchLines ⟨enabled, throughOperators, []⟩ = switchLines ⟨enabled', throughOperators', []⟩ →
        enabled = enabled' ∧ throughOperators = throughOperators' := by
    decide +kernel
  exact hswitches _ _ _ _ h

/-- The line starts the disabled rules. -/
def startsRules (line : String) : Bool :=
  line == "  Disabled rules: (none)" || line == "  Disabled rules:"

theorem startsRules_of_mem_switchLines {line : String} (h : line ∈ switchLines config) :
    startsRules line = false := by
  have hswitches : ∀ enabled throughOperators : Option Bool,
      ∀ line ∈ switchLines ⟨enabled, throughOperators, []⟩, startsRules line = false := by
    decide +kernel
  exact hswitches _ _ line h

/-- The lines of the switches end where the rules start. -/
theorem takeWhile_settingLines (config : Config) :
    (settingLines config).takeWhile (!startsRules ·) = switchLines config := by
  have hswitches : ∀ line ∈ switchLines config, (!startsRules line) = true := by
    intro line hline
    rw [startsRules_of_mem_switchLines hline]
    rfl
  have hrules : (ruleLines config.disabledRules).takeWhile (!startsRules ·) = [] := by
    unfold ruleLines
    split
    · rfl
    · rfl
  rw [settingLines_eq, List.takeWhile_append_of_pos hswitches, hrules, List.append_nil]

/-- **The lines of a configuration say which one it is.** -/
theorem settingLines_injective : Function.Injective settingLines := by
  intro first second h
  have hswitches : switchLines first = switchLines second := by
    rw [← takeWhile_settingLines first, h, takeWhile_settingLines]
  have hrules : ruleLines first.disabledRules = ruleLines second.disabledRules := by
    rw [settingLines_eq, settingLines_eq, hswitches] at h
    exact List.append_cancel_left h
  obtain ⟨henabled, hthrough⟩ := switches_of_switchLines_eq hswitches
  have hdisabled := ruleLines_injective hrules
  cases first
  cases second
  cases henabled
  cases hthrough
  cases hdisabled
  rfl

/-- The rules that are counted are those of the rewriter. -/
theorem countP_labels (host : Host) (config : Option Config) :
    Rule.labels.countP (fun label => !(disabledIn config).contains label) =
      (rewriter host config).rules.length := by
  rw [List.countP_eq_length_filter, Rule.labels, List.filter_map, List.length_map]
  rfl

/-- **The settings in effect are the hook's:** whether it goes on, and what its rewriter is like. -/
theorem effectLines_eq (host : Host) (config : Option Config) :
    effectLines host config =
      ["Effective settings:",
        "  rewriting: " ++ onOff (isRewriting host config),
        "  rewrite through operators: " ++ onOff (rewriter host config).throughOperators,
        s!"  active rules: {(rewriter host config).rules.length} of {Rule.labels.length}"] ++
      if isDisabledBy host then [s!"  ({disableVariable} is set)"] else [] := by
  rw [← countP_labels]
  cases config with
  | none => rfl
  | some config => rfl

/-! ## Files -/

/-- The names on the ways to the two directories with configurations can be written. -/
structure IsWritten (host : Host) : Prop where
  home : ∀ name ∈ host.home, IsWrittenName name
  current : ∀ name ∈ host.current, IsWrittenName name

/-- A path that is given as it is written is read as the hook reads it. -/
theorem checkGiven_ofLocation {location : Location} (h : ∀ name ∈ location, IsWrittenName name) :
    checkGiven host (Path.ofLocation location).text =
      check host (Path.ofLocation location).text (.ofLocation location) := by
  rw [checkGiven, Path.ofText_text_ofLocation h, expandHome_ofLocation]
  rfl

theorem isWrittenName_append {location : Location} {names : List Name}
    (h : ∀ name ∈ location, IsWrittenName name) (hnames : ∀ name ∈ names, IsWrittenName name) :
    ∀ name ∈ location ++ names, IsWrittenName name := by
  intro name hname
  rcases List.mem_append.1 hname with hname | hname
  · exact h name hname
  · exact hnames name hname

theorem checkGiven_scope (hwritten : IsWritten host) {scope : Scope} (h : scope ∈ scopes host) :
    checkGiven host scope.path.text = check host scope.path.text scope.path := by
  have hstore : ∀ name ∈ [storeName, "config.json".toList], IsWrittenName name := by
    intro name hname
    simp only [List.mem_cons, List.not_mem_nil, or_false] at hname
    rcases hname with rfl | rfl
    · exact ⟨by decide, by decide, by decide⟩
    · exact ⟨by decide, by decide, by decide⟩
  have hproject : ∀ name ∈ [projectFileName], IsWrittenName name := by
    intro name hname
    rw [List.mem_singleton.1 hname]
    exact ⟨by decide, by decide, by decide⟩
  have hscope := (List.mem_filter.1 h).1
  simp only [List.mem_cons, List.not_mem_nil, or_false] at hscope
  rcases hscope with rfl | rfl
  · exact checkGiven_ofLocation (isWrittenName_append hwritten.home hstore)
  · exact checkGiven_ofLocation (isWrittenName_append hwritten.current hproject)

/-- A block says what the hook makes of a file: the hook reads the configuration whose settings are
shown, or there is something wrong with the file and the hook ignores it. -/
inductive Tells (host : Host) (scope : Scope) : Block → Prop where
  | valid {config : Config} : load? host scope.path = .ok (some config) →
      Tells host scope (scope.block (.ok config))
  | ignored {problem : Problem} : load? host scope.path = .ok none →
      check host scope.path.text scope.path = .ok (.error problem) →
      Tells host scope (scope.block (.error problem))

theorem tells_of_check {scope : Scope} {result : Except Problem Config} {loaded : Option Config}
    (h : check host scope.path.text scope.path = .ok result)
    (hload : load? host scope.path = .ok loaded) : Tells host scope (scope.block result) := by
  have hsame := load?_of_check h hload
  cases result with
  | error problem => exact .ignored (hload.trans (congrArg _ hsame)) h
  | ok config => exact .valid (hload.trans (congrArg _ hsame))

/-- The block has lines for errors exactly if the hook ignores the file. -/
theorem Tells.isEmpty_errors_iff {scope : Scope} {block : Block} (h : Tells host scope block) :
    block.errors.isEmpty = false ↔ load? host scope.path = .ok none := by
  cases h with
  | valid hload =>
    refine iff_of_false (fun h => by cases h) ?_
    rw [hload]
    intro h
    cases h
  | ignored hload => exact iff_of_true rfl hload

/-- **Without a failure, each file gets a block that tells what the hook makes of it.** -/
theorem forall₂_tells {files : List Scope}
    (hfiles : ∀ scope ∈ files,
      checkGiven host scope.path.text = check host scope.path.text scope.path)
    (hloads : ∀ scope ∈ files, ∃ loaded, load? host scope.path = .ok loaded)
    (h : (blocks host files).2 = none) :
    List.Forall₂ (Tells host) files (blocks host files).1 := by
  -- the check ends at the first failure, so no file has met one
  induction files with
  | nil => exact .nil
  | cons scope rest ih =>
    have hscope := hfiles scope (List.mem_cons_self ..)
    obtain ⟨loaded, hload⟩ := hloads scope (List.mem_cons_self ..)
    have hrest := ih (fun other hother => hfiles other (List.mem_cons_of_mem _ hother))
      fun other hother => hloads other (List.mem_cons_of_mem _ hother)
    unfold blocks at h ⊢
    rw [hscope] at h ⊢
    cases hcheck : check host scope.path.text scope.path with
    | error failure =>
      rw [hcheck] at h
      cases h
    | ok result =>
      rw [hcheck] at h
      exact .cons (tells_of_check hcheck hload) (hrest h)

/-- Some block has lines for errors exactly if the hook ignores some file. -/
theorem any_errors_iff {files : List Scope} {bs : List Block}
    (h : List.Forall₂ (Tells host) files bs) :
    (bs.any fun block => !block.errors.isEmpty) = true ↔
      ∃ scope ∈ files, load? host scope.path = .ok none := by
  induction h with
  | nil => simp
  | cons htells _ ih =>
    rw [List.any_cons, Bool.or_eq_true, ih, Bool.not_eq_true', htells.isEmpty_errors_iff,
      List.exists_mem_cons_iff]

/-! ## Agreement -/

/-- The path of the current directory. -/
def currentPath (host : Host) : List Char :=
  (Path.ofLocation host.current).text

theorem currentPath_ne_nil (host : Host) : currentPath host ≠ [] :=
  List.cons_ne_nil _ _

/-- Where the settings in effect are known, each file has been read. -/
theorem exists_load? (hwritten : IsWritten host) {effective : Option Config}
    (heffective : inForce? host (some (currentPath host)) = .ok effective) :
    ∀ scope ∈ scopes host, ∃ loaded, load? host scope.path = .ok loaded := by
  obtain ⟨user, project, huser, hproject, -⟩ := inForce?_eq_ok (currentPath_ne_nil host) heffective
  rw [currentPath, Path.ofText_text_ofLocation hwritten.current] at hproject
  intro scope hscope
  have hpaths := (List.mem_filter.1 hscope).1
  simp only [List.mem_cons, List.not_mem_nil, or_false] at hpaths
  rcases hpaths with rfl | rfl
  · exact ⟨user, huser⟩
  · exact ⟨project, hproject⟩

/-- An event that names the current directory leads the hook there. -/
theorem directory_of_currentPath {members : Members} {call : ToolCall}
    (hcall : ToolCall.ofMembers? members = some call)
    (hdirectory : members.get? "cwd" = some (textValue (currentPath host)))
    (htrim : trim (currentPath host) = currentPath host) :
    call.directory = some (currentPath host) := by
  have hslash : isWhite (currentPath host) = false := rfl
  rw [ToolCall.directory_eq hcall, hdirectory, textValue, ToolCall.directoryOf,
    String.toList_ofList]
  rw [hslash, if_neg Bool.false_ne_true, htrim]

/-- What is printed of the check where nothing fails. -/
theorem run_eq {effective : Option Config} (hblocks : (blocks host (scopes host)).2 = none)
    (heffective : inForce? host (some (currentPath host)) = .ok effective) :
    run host =
      let bs := (blocks host (scopes host)).1
      let isWrong := bs.any fun block => !block.errors.isEmpty
      ⟨printed ([title, String.ofList (List.replicate title.length '═')] ++
          (if (scopes host).isEmpty then
            ["", "No config files found. Using built-in defaults."] else []) ++
          bs.flatMap Block.output ++ [""] ++ effectLines host effective ++
          if isWrong || (scopes host).isEmpty then [] else ["", "All configs valid."]),
        printed (bs.flatMap Block.errors ++
          if isWrong then
            ["", "Config validation failed. Invalid files are ignored by the hook."] else []),
        .ok (if isWrong then 1 else 0)⟩ := by
  rw [run]
  dsimp only
  rw [hblocks]
  dsimp only
  rw [show inForce? host (some (Path.ofLocation host.current).text) = .ok effective from heffective]
  dsimp only
  cases (blocks host (scopes host)).1.any fun block => !block.errors.isEmpty with
  | true =>
    rw [if_pos rfl, if_pos rfl, Bool.true_or, if_pos rfl, if_pos rfl, List.append_nil]
  | false =>
    rw [if_neg Bool.false_ne_true, if_neg Bool.false_ne_true, if_neg Bool.false_ne_true,
      Bool.false_or, List.append_nil]
    cases (scopes host).isEmpty with
    | true => rw [if_pos rfl, if_pos rfl, if_pos rfl, List.append_nil]
    | false =>
      rw [if_neg Bool.false_ne_true, if_neg Bool.false_ne_true, if_neg Bool.false_ne_true]

/-- A check that ends without a failure has met none in a file, and none in the configuration. -/
theorem ends_without_failure {status : Nat} (hended : (run host).ending = .ok status) :
    (blocks host (scopes host)).2 = none ∧
      ∃ effective, inForce? host (some (currentPath host)) = .ok effective := by
  unfold run at hended
  dsimp only at hended
  split at hended
  · cases hended
  · rename_i hblocks
    refine ⟨hblocks, ?_⟩
    split at hended
    · cases hended
    · rename_i effective heffective
      exact ⟨effective, heffective⟩

/-- **The check of configurations agrees with the hook.** Where the check ends without a failure,
each file that is there has a block that shows the configuration that the hook reads from it, or the
file is one that the hook ignores, and then the status is 1. The settings in effect are those that
the hook goes by for an event that names the current directory: whether it goes on, and with which
rewriter. The hook may have other room than the check, and then this is so unless it fails. -/
theorem check_agrees_with_hook {host : Host} {status : Nat} (hwritten : IsWritten host)
    (htrim : trim (currentPath host) = currentPath host)
    (hended : (run host).ending = .ok status) :
    ∃ bs effective, inForce? host (some (currentPath host)) = .ok effective ∧
      List.Forall₂ (Tells host) (scopes host) bs ∧ Function.Injective settingLines ∧
      (run host).output = printed
        ([title, String.ofList (List.replicate title.length '═')] ++
          (if (scopes host).isEmpty then
            ["", "No config files found. Using built-in defaults."] else []) ++
          bs.flatMap Block.output ++
          ["", "Effective settings:",
            "  rewriting: " ++ onOff (isRewriting host effective),
            "  rewrite through operators: " ++ onOff (rewriter host effective).throughOperators,
            s!"  active rules: {(rewriter host effective).rules.length} of {Rule.labels.length}"] ++
          (if isDisabledBy host then [s!"  ({disableVariable} is set)"] else []) ++
          if status = 1 ∨ scopes host = [] then [] else ["", "All configs valid."]) ∧
      (run host).errors = printed
        (bs.flatMap Block.errors ++
          if status = 1 then
            ["", "Config validation failed. Invalid files are ignored by the hook."] else []) ∧
      status ≤ 1 ∧ (status = 1 ↔ ∃ scope ∈ scopes host, load? host scope.path = .ok none) ∧
      ∀ (rooms : Rooms) (time : String) (text : List Char) (members : Members) (call : ToolCall),
        Json.readWithin rooms.event text = .ok (.obj members) →
        members.get? "cwd" = some (textValue (currentPath host)) →
        ToolCall.ofMembers? members = some call →
        call.directory = some (currentPath host) ∧
        ∀ config, inForce? { host with rooms } call.directory = .ok config →
          config = effective ∧
          Hook.answer { host with rooms } time call =
            if isRewriting host effective then
              Hook.proceed { host with rooms } time call (rewriter host effective)
            else .ok (.silence, { host with rooms }) := by
  obtain ⟨hblocks, effective, heffective⟩ := ends_without_failure hended
  have htells := forall₂_tells (fun scope hscope => checkGiven_scope hwritten hscope)
    (exists_load? hwritten heffective) hblocks
  have hwrong := any_errors_iff htells
  have hrun := run_eq hblocks heffective
  dsimp only at hrun
  rw [hrun] at hended
  have hempty : (scopes host).isEmpty = true ↔ scopes host = [] := List.isEmpty_iff
  have hstatus : status = 1 ↔
      ((blocks host (scopes host)).1.any fun block => !block.errors.isEmpty) = true := by
    rw [← Except.ok.inj hended]
    split
    · rename_i h
      exact iff_of_true rfl h
    · rename_i h
      exact iff_of_false (by decide) h
  refine ⟨(blocks host (scopes host)).1, effective, heffective, htells, settingLines_injective, ?_,
    ?_, ?_, hstatus.trans hwrong, ?_⟩
  · rw [hrun, effectLines_eq]
    simp only [Bool.or_eq_true, ← hstatus, hempty, List.append_assoc, List.cons_append,
      List.nil_append]
  · rw [hrun]
    simp only [← hstatus]
  · rw [← Except.ok.inj hended]
    split
    · exact Nat.le_refl 1
    · exact Nat.zero_le 1
  · intro rooms time text members call hread hdirectory hcall
    have hplace := directory_of_currentPath hcall hdirectory htrim
    have htext : ToolCall.ofText? rooms.event text = .ok (some call) := by
      rw [ToolCall.ofText?_of_readWithin hread, hcall]
    refine ⟨hplace, fun config hconfig => ?_⟩
    have hanswer := Hook.answer_eq (ToolCall.command_ne_nil htext) hconfig time
    rw [hplace] at hconfig
    obtain rfl := inForce?_congr (currentPath_ne_nil host) heffective hconfig
    exact ⟨rfl, hanswer⟩

/-- A host with a configuration of the user that disables a rule, and one of a project that says
nothing, not even its version. -/
def checkedHost : Host :=
  { Hook.storeHost
      [(["home".toList, "user".toList, storeName, "config.json".toList],
        .file (Utf8.encode (write (.obj
          [("version", .int 1), ("disabled_rules", .arr [.str "curl"])]))) 0),
      (["work".toList], .directory 0),
      (["work".toList, projectFileName], .file (Utf8.encode (write (.obj []))) 0)] with
    current := ["work".toList]
    hasTool := true }

/-- A call in the directory of the project. -/
def workCall : ToolCall :=
  { Hook.statusCall with directory := some "/work".toList }

/-- The project's file is ignored, and the hook goes by the user's. -/
theorem check_agrees_with_hook_ignored :
    (∃ scope ∈ scopes checkedHost, load? checkedHost scope.path = .ok none) ∧
      Hook.answer checkedHost "" workCall =
        Hook.proceed checkedHost "" workCall
          (rewriter checkedHost (some ⟨none, none, ["curl"]⟩)) := by
  have hwritten : IsWritten checkedHost := by
    constructor
    · intro name hname
      simp only [checkedHost, Hook.storeHost, Hook.bareHost, List.mem_cons, List.not_mem_nil,
        or_false] at hname
      rcases hname with rfl | rfl
      · exact ⟨by decide, by decide, by decide⟩
      · exact ⟨by decide, by decide, by decide⟩
    · intro name hname
      rw [List.mem_singleton.1 hname]
      exact ⟨by decide, by decide, by decide⟩
  have htrim : trim (currentPath checkedHost) = currentPath checkedHost := by decide
  have hended : (run checkedHost).ending = .ok 1 := by decide +kernel
  have hexact : (Value.obj (("cwd", .str "/work") :: Hook.statusEvent)).IsExact := by
    cases Hook.isExact_statusEvent with
    | obj _ _ h =>
      refine .obj _ (by decide) fun member hmember => ?_
      rcases List.mem_cons.1 hmember with rfl | hmember
      · exact .str _
      · exact h member hmember
  have hconfig : inForce? checkedHost workCall.directory =
      .ok (some ⟨none, none, ["curl"]⟩) := by decide +kernel
  obtain ⟨bs, effective, -, -, -, -, -, -, hstatus, hhook⟩ :=
    check_agrees_with_hook hwritten htrim hended
  obtain ⟨-, hfound⟩ := hhook .unlimited "" _ _ workCall
    (readWithin_write hexact (Room.holds_none _)) rfl rfl
  obtain ⟨rfl, hanswer⟩ := hfound _ hconfig
  exact ⟨hstatus.1 rfl, hanswer⟩

end CompactShell.Command.Verification
