import CompactShell.Proofs.Hook.Agreement
import CompactShell.Proofs.Json.Proper

/-!
# What the hook answers

The hook is silent, warns of the missing tool, or hands on the event's input with another command in
it (`answer_cases`). What it says is one line that holds a JSON object (`exists_line_of_answer`).
Where the event has no fractions, the line reads as exactly what is handed on: the names of the
event's input in their order, each with its value, and the command as the rewriter has made it
(`updated_input_kept`).
-/

namespace CompactShell

open Json Text Log

@[simp] theorem Session.rewriter_new (rewriter : Rewriter) (available enabled : Bool) :
    (new rewriter available enabled).rewriter = rewriter := rfl

theorem Session.rewrite?_of_handle {session next : Session} {command : List Char}
    {rewrite : Rewrite} (h : session.handle command = (some rewrite, next)) :
    session.rewriter.rewrite? command = some rewrite := by
  unfold handle at h
  split at h
  · cases h
  · exact congrArg Prod.fst h

theorem Session.eq_of_warning? {session next : Session} {warning : Option String}
    (h : session.warning? = (warning, next)) :
    warning = some missingToolWarning ∨ warning = none ∧ next = session := by
  unfold warning? at h
  split at h
  · cases h
    exact .inr ⟨rfl, rfl⟩
  · cases h
    exact .inl rfl

namespace Command

/-! ## Events -/

/-- The input and the command of a call are those of its event. -/
theorem ToolCall.ofMembers?_spec {members : Members} {call : ToolCall}
    (h : ToolCall.ofMembers? members = some call) :
    members.get? "tool_input" = some (.obj call.input) ∧
      Members.get? call.input "command" = some (textValue call.command) := by
  unfold ToolCall.ofMembers? at h
  split at h
  · rename_i hinput
    split at h
    · rename_i command hcommand
      split at h
      · cases h
      · cases h
        refine ⟨hinput, ?_⟩
        rw [textValue, String.ofList_toList]
        exact hcommand
    · cases h
  · cases h

theorem ToolCall.directory_eq {members : Members} {call : ToolCall}
    (h : ToolCall.ofMembers? members = some call) :
    call.directory = directoryOf (members.get? "cwd") := by
  unfold ToolCall.ofMembers? at h
  split at h
  · split at h
    · split at h
      · cases h
      · cases h
        rfl
    · cases h
  · cases h

variable {room : Room} {text : List Char}

theorem ToolCall.ofText?_eq_some {call : ToolCall}
    (h : ToolCall.ofText? room text = .ok (some call)) :
    ∃ members, readWithin room text = .ok (.obj members) ∧
      ToolCall.ofMembers? members = some call := by
  unfold ToolCall.ofText? at h
  split at h
  · rename_i members hread
    exact ⟨members, hread, Except.ok.inj h⟩
  · cases h
  · cases h

theorem ToolCall.ofText?_of_readWithin {members : Members}
    (h : readWithin room text = .ok (.obj members)) :
    ToolCall.ofText? room text = .ok (ToolCall.ofMembers? members) := by
  rw [ToolCall.ofText?, h]

namespace Hook

variable {host after : Host} {time : String} {call : ToolCall} {result : Answer}

/-! ## Answers -/

theorem warn_cases {log : Option Host.Name} {warning : String}
    (h : warn host time log call warning = .ok (result, after)) :
    result = .silence ∨ result = .warning warning := by
  unfold warn at h
  cases log with
  | none =>
    cases h
    exact .inl rfl
  | some file =>
    dsimp only [bind, Except.bind] at h
    split at h
    · cases h
    · split at h
      · cases h
        exact .inl rfl
      · cases h
        exact .inr rfl

/-- **Everything that the hook can answer.** -/
theorem answer_cases (h : answer host time call = .ok (result, after)) :
    result = .silence ∨ result = .warning Session.missingToolWarning ∨
      ∃ config rewrite, Config.inForce? host call.directory = .ok config ∧
        (Config.rewriter host config).rewrite? call.command = some rewrite ∧
        result = .update (call.input.put "command" (textValue rewrite.command)) := by
  unfold answer at h
  dsimp only [bind, Except.bind] at h
  split at h
  · cases h
  · rename_i config hconfig
    split at h
    · cases h
      exact .inl rfl
    · split at h
      · rename_i warning next hwarning
        rcases Session.eq_of_warning? hwarning with hsome | ⟨hnone, -⟩
        · cases hsome
          exact (warn_cases h).imp id .inl
        · cases hnone
      · rename_i session hwarning
        rcases Session.eq_of_warning? hwarning with hsome | ⟨-, rfl⟩
        · cases hsome
        · split at h
          · cases h
            exact .inl rfl
          · rename_i rewrite next hhandle
            cases h
            have hrewrite := Session.rewrite?_of_handle hhandle
            rw [Session.rewriter_new] at hrewrite
            exact .inr (.inr ⟨config, rewrite, hconfig, hrewrite, rfl⟩)

/-- With the compact tool there, a command that the rewriter knows is handed on. -/
theorem answer_of_rewrite? {config : Option Config} {rewrite : Rewrite}
    (hconfig : Config.inForce? host call.directory = .ok config)
    (hrewriting : Config.isRewriting host config = true) (htool : host.hasTool = true)
    (hcommand : call.command ≠ [])
    (hrewrite : (Config.rewriter host config).rewrite? call.command = some rewrite)
    (time : String) :
    answer host time call = .ok (.update (call.input.put "command" (textValue rewrite.command)),
      record host time call.log? .rewrite call (some rewrite)) := by
  rw [answer_eq hcommand hconfig, if_pos hrewriting, proceed, if_pos htool, hrewrite]

theorem run_of_answer (hreads : ToolCall.ofText? host.rooms.event text = .ok (some call))
    (h : answer host time call = .ok (result, after)) :
    (run host time text).1 = ⟨result.output, "", .ok 0⟩ := by
  rw [run, hreads]
  dsimp only [bind, Except.bind]
  rw [h]

/-! ## Lines -/

theorem Answer.output_of_value? {v : Value} (h : result.value? = some v) :
    result.output = String.ofList (write v ++ ['\n']) := by
  rw [Answer.output, h]

/-- A new command leaves the input proper. -/
theorem isProper_put {input : Members} (h : (Value.obj input).IsProper) (name text : String) :
    (Value.obj (input.put name (.str text))).IsProper := by
  cases h with
  | obj _ hnames hall =>
    refine .obj _ (Members.nodup_put hnames _ _) fun member hmember => ?_
    rcases Members.mem_put hmember with rfl | hmember
    · exact .str text
    · exact hall member hmember

theorem isProper_single {name : String} {v : Value} (h : v.IsProper) :
    (Value.obj [(name, v)]).IsProper :=
  .obj _ (by simp) fun member hmember => List.mem_singleton.1 hmember ▸ h

/-- What is handed on, as an answer says it. -/
theorem isProper_update {input : Members} (h : (Value.obj input).IsProper) :
    (Value.obj [("hookSpecificOutput",
      .obj [("hookEventName", .str "PreToolUse"), ("updatedInput", .obj input)])]).IsProper := by
  have hnames : ["hookEventName", "updatedInput"].Nodup := by decide
  refine isProper_single (.obj _ hnames fun member hmember => ?_)
  simp only [List.mem_cons, List.not_mem_nil, or_false] at hmember
  rcases hmember with rfl | rfl
  · exact .str _
  · exact h

/-- The input of a call is a proper value. -/
theorem isProper_input (hreads : ToolCall.ofText? room text = .ok (some call)) :
    (Value.obj call.input).IsProper := by
  obtain ⟨members, hread, hcall⟩ := ToolCall.ofText?_eq_some hreads
  have hinput := Members.mem_of_get? (ToolCall.ofMembers?_spec hcall).1
  cases isProper_of_readWithin hread with
  | obj _ _ hall => exact hall _ hinput

/-- **What the hook says is one line that holds a JSON object.** -/
theorem exists_line_of_answer (hreads : ToolCall.ofText? room text = .ok (some call))
    (h : answer host time call = .ok (result, after)) :
    result.output = "" ∨ ∃ line members, result.output = String.ofList (line ++ ['\n']) ∧
      '\n' ∉ line ∧ Json.read line = .ok (.obj members) := by
  have hline : ∀ members, result.value? = some (.obj members) → (Value.obj members).IsProper →
      ∃ line members, result.output = String.ofList (line ++ ['\n']) ∧ '\n' ∉ line ∧
        Json.read line = .ok (.obj members) := by
    intro members hvalue hproper
    obtain ⟨again, hreadAs, hobject⟩ := hproper.exists_isReadAs
    refine ⟨write (.obj members), ?_⟩
    cases again with
    | obj again =>
      exact ⟨again, Answer.output_of_value? hvalue,
        fun hmem => absurd (hproper.isVisible '\n' hmem) (by decide), hreadAs.read_write hproper⟩
    | null | bool | int | real | str | arr => cases hobject
  rcases answer_cases h with rfl | rfl | ⟨config, rewrite, -, -, rfl⟩
  · exact .inl rfl
  · exact .inr (hline _ rfl (isProper_single (.str _)))
  · exact .inr (hline _ rfl (isProper_update (isProper_put (isProper_input hreads) _ _)))

/-! ## What is handed on -/

theorem isWhole_put {input : Members} (h : (Value.obj input).IsWhole) (name text : String) :
    (Value.obj (input.put name (.str text))).IsWhole := by
  cases h with
  | obj _ hall =>
    refine .obj _ fun member hmember => ?_
    rcases Members.mem_put hmember with rfl | hmember
    · exact .str text
    · exact hall member hmember

theorem isWhole_update {input : Members} (h : (Value.obj input).IsWhole) :
    (Value.obj [("hookSpecificOutput",
      .obj [("hookEventName", .str "PreToolUse"), ("updatedInput", .obj input)])]).IsWhole := by
  refine .obj _ fun outer houter => ?_
  rw [List.mem_singleton.1 houter]
  refine .obj _ fun member hmember => ?_
  simp only [List.mem_cons, List.not_mem_nil, or_false] at hmember
  rcases hmember with rfl | rfl
  · exact .str _
  · exact h

/-- **The agent's shell is given all that it was to be given, but another command.** An event
without fractions that the hook answers with an update is answered by one line. It reads as the
event's input with the same names in the same order, each name with its own value but that of the
command, which is what the rewriter in force makes of the command: nothing is hidden from it and
nothing cut off. -/
theorem updated_input_kept {members updated : Members}
    (hread : readWithin host.rooms.event text = .ok (.obj members))
    (hwhole : (Value.obj members).IsWhole)
    (hcall : ToolCall.ofMembers? members = some call)
    (hanswer : answer host time call = .ok (.update updated, after)) :
    members.get? "tool_input" = some (.obj call.input) ∧
      Members.get? call.input "command" = some (textValue call.command) ∧
      (∃ config rewrite, Config.inForce? host call.directory = .ok config ∧
        (Config.rewriter host config).rewrite? call.command = some rewrite ∧
        Members.get? updated "command" = some (textValue rewrite.command)) ∧
      updated.map Prod.fst = call.input.map Prod.fst ∧ (updated.map Prod.fst).Nodup ∧
      (∀ name, name ≠ "command" → Members.get? updated name = Members.get? call.input name) ∧
      ∃ line, (run host time text).1 = ⟨String.ofList (line ++ ['\n']), "", .ok 0⟩ ∧
        '\n' ∉ line ∧
        Json.read line = .ok (.obj [("hookSpecificOutput",
          .obj [("hookEventName", .str "PreToolUse"), ("updatedInput", .obj updated)])]) := by
  obtain ⟨hinput, hcommand⟩ := ToolCall.ofMembers?_spec hcall
  have hreads : ToolCall.ofText? host.rooms.event text = .ok (some call) := by
    rw [ToolCall.ofText?_of_readWithin hread, hcall]
  have hproper := isProper_input hreads
  have hwholeInput : (Value.obj call.input).IsWhole := by
    cases hwhole with
    | obj _ hall => exact hall _ (Members.mem_of_get? hinput)
  have hnames : (call.input.map Prod.fst).Nodup := by
    cases hproper with
    | obj _ hnames _ => exact hnames
  rcases answer_cases hanswer with hsilent | hwarning | ⟨config, rewrite, hconfig, hrewrite, hput⟩
  · cases hsilent
  · cases hwarning
  · cases hput
    have hupdate := isProper_update (isProper_put hproper "command" (String.ofList rewrite.command))
    have hexact := hupdate.isExact (isWhole_update (isWhole_put hwholeInput _ _))
    have hthere : "command" ∈ call.input.map Prod.fst :=
      List.mem_map_of_mem (Members.mem_of_get? hcommand)
    have hsame : (call.input.put "command" (textValue rewrite.command)).map Prod.fst =
        call.input.map Prod.fst := by
      rw [Members.map_fst_put, if_pos hthere]
    refine ⟨hinput, hcommand, ⟨config, rewrite, hconfig, hrewrite, Members.get?_put_self ..⟩,
      hsame, hsame ▸ hnames, fun name hname => Members.get?_put_of_ne hname .., _,
      run_of_answer hreads hanswer, ?_, read_write hexact⟩
    exact fun hmem => absurd (hupdate.isVisible '\n' hmem) (by decide)

/-- What an agent's shell is to be given for a command, and the command stands in the middle. -/
def statusInput : Members :=
  [("timeout", .int 9000), ("command", .str "git status"), ("description", .str "Où suis-je ?")]

def statusEvent : Members :=
  [("tool_name", .str "Bash"), ("tool_input", .obj statusInput)]

theorem isExact_statusEvent : (Value.obj statusEvent).IsExact := by
  have houter : (statusEvent.map Prod.fst).Nodup := by decide
  have hinner : (statusInput.map Prod.fst).Nodup := by decide
  refine .obj _ houter fun member hmember => ?_
  simp only [statusEvent, List.mem_cons, List.not_mem_nil, or_false] at hmember
  rcases hmember with rfl | rfl
  · exact .str _
  · refine .obj _ hinner fun member hmember => ?_
    simp only [statusInput, List.mem_cons, List.not_mem_nil, or_false] at hmember
    rcases hmember with rfl | rfl | rfl
    · exact .int _ (by decide)
    · exact .str _
    · exact .str _

def statusCall : ToolCall :=
  ⟨"git status".toList, statusInput, none, none⟩

/-- A host without files that has the compact tool. -/
def toolHost : Host :=
  { bareHost with hasTool := true }

theorem updated_input_kept_status :
    ∃ line, (run toolHost "" (write (.obj statusEvent))).1 =
        ⟨String.ofList (line ++ ['\n']), "", .ok 0⟩ ∧
      Json.read line = .ok (.obj [("hookSpecificOutput",
        .obj [("hookEventName", .str "PreToolUse"), ("updatedInput",
          .obj [("timeout", .int 9000), ("command", .str "rtk git status"),
            ("description", .str "Où suis-je ?")])])]) := by
  have hread := readWithin_write isExact_statusEvent (Room.holds_none _)
  have hcall : ToolCall.ofMembers? statusEvent = some statusCall := rfl
  have hconfig : Config.inForce? toolHost statusCall.directory = .ok none := rfl
  have hcommand : statusCall.command ≠ [] := by decide
  have hrewrite : (Config.rewriter toolHost none).rewrite? statusCall.command =
      some ⟨"rtk git status".toList, ["git"]⟩ := by decide +kernel
  have hanswer := answer_of_rewrite? hconfig rfl rfl hcommand hrewrite ""
  obtain ⟨-, -, -, -, -, -, line, hrun, -, hline⟩ :=
    updated_input_kept hread isExact_statusEvent.isWhole hcall hanswer
  exact ⟨line, hrun, hline⟩

end Hook

end Command

end CompactShell
