import CompactShell.Log.Time
import CompactShell.Proofs.Hook.Runs

/-!
# Logs and sessions count the same

The statistics of a session are made from its log. They are what a session in memory would have
counted that had handled the same commands (`logs_agree_with_sessions`): both count the commands
that the compact tool was there for, and nothing else (`filterMap_recordOf?_logged`,
`tally_handled`).
-/

namespace CompactShell.Command.Hook

open Host Log Text

variable {rewriter : Rewriter}

/-! ## What is counted -/

/-- What a command counts for: the rule that rewrites it, or none. -/
def Arrival.record (rewriter : Rewriter) (a : Arrival) : Option String :=
  (rewriter.rewrite? a.call.command).map Rewrite.rule

theorem recordOf?_entry (htable : rewriter.OverTable) (a : Arrival) :
    recordOf? (a.entry rewriter).members = some (a.record rewriter) := by
  have hrule : ∀ rule, (a.entry rewriter).rule = some rule → rule ≠ "" := by
    intro rule hsome
    obtain ⟨rewrite, hrewrite, rfl⟩ := Option.map_eq_some_iff.1 hsome
    exact htable.rule_ne_empty hrewrite
  rw [recordOf?_members _ hrule, Arrival.entry, Arrival.record]
  cases rewriter.rewrite? a.call.command with
  | none => rfl
  | some rewrite => rfl

theorem recordOf?_notice (a : Arrival) : recordOf? a.notice.members = none := by
  rw [recordOf?_members]
  · rfl
  · intro rule hsome
    cases hsome

/-- A log counts the commands that the compact tool was there for. -/
theorem filterMap_recordOf?_logged (htable : rewriter.OverTable) (arrivals : List Arrival) :
    ((logged rewriter arrivals).map Entry.members).filterMap recordOf? =
      (arrivals.filter (·.hasTool)).map (·.record rewriter) := by
  have hentries : ∀ arrivals : List Arrival,
      ((arrivals.map (·.entry rewriter)).map Entry.members).filterMap recordOf? =
        arrivals.map (·.record rewriter) := by
    intro arrivals
    rw [List.map_map, List.filterMap_map, ← List.filterMap_eq_map]
    exact List.filterMap_congr fun a _ => recordOf?_entry htable a
  induction arrivals with
  | nil => rfl
  | cons a rest ih =>
    cases ha : a.hasTool with
    | true =>
      rw [logged_cons_of_hasTool ha, List.map_cons,
        List.filterMap_cons_some (recordOf?_entry htable a), ih, List.filter_cons_of_pos ha,
        List.map_cons]
    | false =>
      rw [logged_cons_of_missing ha, List.map_cons, List.filterMap_cons_none (recordOf?_notice a),
        hentries, List.filter_cons_of_neg (by rw [ha]; exact Bool.false_ne_true)]

/-! ## Sessions -/

/-- A session hands on a command, with the compact tool there or not as the hook met it. -/
def Arrival.handleIn (session : Session) (a : Arrival) : Session :=
  ({ session with available := a.hasTool }.handle a.call.command).2

/-- A session that has handled the commands. -/
def handled (rewriter : Rewriter) (arrivals : List Arrival) : Session :=
  arrivals.foldl Arrival.handleIn (Session.new rewriter true true)

/-- A session counts a command if the compact tool was there for it. -/
theorem Arrival.handleIn_eq {session : Session} (henabled : session.enabled = true) (a : Arrival) :
    a.handleIn session =
      { session with
        available := a.hasTool
        tally :=
          if a.hasTool then session.tally.record (a.record session.rewriter)
          else session.tally } := by
  have hempty : a.call.command.isEmpty = false :=
    List.isEmpty_eq_false_iff.2 (ToolCall.command_ne_nil a.reads)
  rw [handleIn, Session.handle, henabled, hempty]
  cases a.hasTool with
  | true => rfl
  | false => rfl

/-- A session counts the commands that the compact tool was there for. -/
theorem tally_foldl_handleIn {session : Session} (henabled : session.enabled = true)
    (arrivals : List Arrival) :
    (arrivals.foldl Arrival.handleIn session).tally =
      ((arrivals.filter (·.hasTool)).map (·.record session.rewriter)).foldl Session.Tally.record
        session.tally := by
  induction arrivals generalizing session with
  | nil => rfl
  | cons a rest ih =>
    have hnext := Arrival.handleIn_eq henabled a
    have henabled' : (a.handleIn session).enabled = true := by
      rw [hnext]
      exact henabled
    rw [List.foldl_cons, ih henabled', hnext]
    cases ha : a.hasTool with
    | true =>
      rw [List.filter_cons_of_pos ha]
      rfl
    | false =>
      rw [List.filter_cons_of_neg (by rw [ha]; exact Bool.false_ne_true)]
      rfl

theorem tally_handled (rewriter : Rewriter) (arrivals : List Arrival) :
    (handled rewriter arrivals).tally =
      .ofList ((arrivals.filter (·.hasTool)).map (·.record rewriter)) :=
  tally_foldl_handleIn rfl arrivals

/-! ## Agreement -/

/-- **A log says of its session what a session in memory counts.** Where logs can be written, none
is there yet, and the configuration stays the same, a log holds after any runs of the hook one entry
for each command of its sessions that the compact tool was there for and one notice at the first
that it was missing for, and they add up to the tally of a session that handles these commands. -/
theorem logs_agree_with_sessions {host : Host} {config : Option Config} {arrivals : List Arrival}
    (hwritable : IsWritable host) (hrewriting : Config.isRewriting host config = true)
    (hnone : ∀ session file, fileName? session = some file →
      host.files.get? (directory host ++ [file]) = none)
    (hfixed : IsFixed config host arrivals) {session : List Char} {file : Name}
    (hfile : fileName? session = some file) :
    ∃ entries,
      entriesAt (hostAfter host arrivals) (path (hostAfter host arrivals) file) = .ok entries ∧
      entries = (logged (Config.rewriter host config) (arrivals.filter (·.isIn file))).map
        Entry.members ∧
      tallyOf entries =
        (handled (Config.rewriter host config) (arrivals.filter (·.isIn file))).tally := by
  have hstart : Follows config (Config.rewriter host config) [] host :=
    ⟨hwritable, hrewriting, rfl, fun session file hfile => .inl ⟨rfl, hnone session file hfile⟩⟩
  have hend := hstart.hostAfter hfixed
  rw [List.nil_append] at hend
  have htable : (Config.rewriter host config).OverTable :=
    Rewriter.overTable_ofRules (fun _ hrule => hrule) _ _
  refine ⟨_, (hend.holds session file hfile).entriesAt hend.isWritable
    (isPlainName_of_fileName? hfile), rfl, ?_⟩
  rw [tallyOf, filterMap_recordOf?_logged htable, tally_handled]

/-- The event of a command in a session. -/
def commandEvent (session command : String) : Json.Value :=
  .obj [("session_id", .str session), ("tool_name", .str "Bash"),
    ("tool_input", .obj [("command", .str command)])]

theorem ofText?_commandEvent {room : Json.Room} (hroom : room.Holds 2) (session : String)
    {command : String} (h : isWhite command.toList = false) :
    ToolCall.ofText? room (Json.write (commandEvent session command)) =
      .ok (some
        { command := command.toList, input := [("command", .str command)], directory := none
          session := some session }) := by
  have hinput : (Json.Value.obj [("command", .str command)]).IsExact := by
    have hnames : ["command"].Nodup := by decide
    exact .obj _ hnames fun member hmember => List.mem_singleton.1 hmember ▸ .str command
  have hexact : (commandEvent session command).IsExact := by
    have hnames : ["session_id", "tool_name", "tool_input"].Nodup := by decide
    refine .obj _ hnames fun member hmember => ?_
    simp only [List.mem_cons, List.not_mem_nil, or_false] at hmember
    rcases hmember with rfl | rfl | rfl
    · exact .str session
    · exact .str "Bash"
    · exact hinput
  rw [ToolCall.ofText?, Json.readWithin_write hexact hroom]
  show Except.ok (if isWhite command.toList then none else some _) = _
  rw [h, if_neg Bool.false_ne_true]
  rfl

/-- A run of the hook on a command in a session. -/
def Arrival.ofCommand (session command : String) (h : isWhite command.toList = false)
    (hasTool : Bool) (now : Nat) : Arrival :=
  { rooms := .unlimited
    text := Json.write (commandEvent session command)
    call := _
    reads := ofText?_commandEvent (Json.Room.holds_none 2) session h
    hasTool
    time := stamp now
    now }

/-- A host without files. -/
def bareHost : Host :=
  ⟨.empty, ["home".toList, "user".toList], [], [], false, [], 0, .unlimited⟩

/-- The same host with a store, and with something more, in the store or elsewhere. -/
def storeHost (more : List (Location × Node)) : Host :=
  { bareHost with
    files := ⟨[(["home".toList], .directory 0), (["home".toList, "user".toList], .directory 0),
      (["home".toList, "user".toList, Config.storeName], .directory 0)] ++ more⟩ }

/-- Two sessions in turn. The compact tool is removed for a while. -/
def twoSessions : List Arrival :=
  [.ofCommand "a" "git status" (by decide) true 1,
    .ofCommand "a" "ls" (by decide) false 2,
    .ofCommand "b" "echo \"\n\u2028\"" (by decide) false 3,
    .ofCommand "a" "pwd" (by decide) true 4]

theorem isWritable_bareHost : IsWritable bareHost := by
  constructor
  · intro name hname
    simp only [bareHost, List.mem_cons, List.not_mem_nil, or_false] at hname
    rcases hname with rfl | rfl
    · exact ⟨by decide, by decide⟩
    · exact ⟨by decide, by decide⟩
  · intro place _
    by_cases hroot : place = []
    · exact .inr (hroot ▸ Files.isDirectory_nil _)
    · exact .inl (if_neg hroot)

/-- One rewritten command, one notice and one that passed through. -/
theorem logs_agree_with_sessions_two :
    ∃ entries,
      entriesAt (hostAfter bareHost twoSessions)
          (path (hostAfter bareHost twoSessions) "a.jsonl".toList) = .ok entries ∧
        entries.length = 3 ∧ tallyOf entries = ⟨2, 1, [("git", 1)]⟩ := by
  have hnone : ∀ session file, fileName? session = some file →
      bareHost.files.get? (directory bareHost ++ [file]) = none := fun _ _ _ => rfl
  have hfixed : IsFixed none bareHost twoSessions :=
    ⟨by decide +kernel, by decide +kernel, by decide +kernel, by decide +kernel, trivial⟩
  have hfile : fileName? "a".toList = some "a.jsonl".toList := by decide
  obtain ⟨entries, hread, hentries, htally⟩ :=
    logs_agree_with_sessions isWritable_bareHost (by decide) hnone hfixed hfile
  refine ⟨entries, hread, ?_, ?_⟩
  · rw [hentries]
    decide +kernel
  · rw [htally]
    decide +kernel

end CompactShell.Command.Hook
