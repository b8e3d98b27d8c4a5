import CompactShell.Command.Hook
import CompactShell.Proofs.Log.Counts
import CompactShell.Proofs.Log.Store

/-!
# Runs of the hook

The hook is run again and again, for any number of sessions in turn, and each time the compact tool
may be there or not. What it remembers from one run to the next is only in the logs.

What a log should say of the commands that arrived in its sessions is said by `logged`: one entry
for each command that the tool was there for, and one notice at the first command that it was
missing for. A run adds to its log what the commands up to it call for (`Follows.step`), so after
any number of runs each log holds exactly what `logged` says (`Follows.hostAfter`).
-/

namespace CompactShell.Command

open Host Log Text

/-! ## Arrivals -/

theorem ToolCall.command_ne_nil {room : Json.Room} {text : List Char} {call : ToolCall}
    (h : ToolCall.ofText? room text = .ok (some call)) : call.command ≠ [] := by
  unfold ToolCall.ofText? at h
  split at h
  · unfold ToolCall.ofMembers? at h
    split at h
    · split at h
      · split at h
        · cases h
        · rename_i hwhite
          cases h
          intro hnil
          dsimp only at hnil
          rw [hnil] at hwhite
          exact hwhite rfl
      · cases h
    · cases h
  · cases h
  · cases h

/-- The file name of the log of the call's session. -/
def ToolCall.log? (call : ToolCall) : Option Name :=
  call.session.bind fun session => fileName? session.toList

namespace Hook

/-- A run of the hook on a command that is not white, with what it meets: how much room there is for
reading, whether the compact tool is there, and the two clocks. -/
structure Arrival where
  rooms : Host.Rooms
  text : List Char
  call : ToolCall
  reads : ToolCall.ofText? rooms.event text = .ok (some call)
  hasTool : Bool
  /-- The time that is written into the log. -/
  time : String
  /-- The time on the clock of changes. -/
  now : Nat

namespace Arrival

/-- The command belongs into the log. -/
def isIn (file : Name) (a : Arrival) : Bool :=
  a.call.log? == some file

/-- The host as the hook meets it. -/
def meet (a : Arrival) (host : Host) : Host :=
  { host with hasTool := a.hasTool, now := a.now, rooms := a.rooms }

/-- The host as the hook leaves it. -/
def step (host : Host) (a : Arrival) : Host :=
  (Hook.run (a.meet host) a.time a.text).2

/-- What is logged of the command where the compact tool is there. -/
def entry (rewriter : Rewriter) (a : Arrival) : Entry :=
  let rewrite := rewriter.rewrite? a.call.command
  .ofCommand a.time (if rewrite.isSome then .rewrite else .pass) a.call.command rewrite
    a.call.directory

/-- What is logged of the first command that the compact tool is missing for. -/
def notice (a : Arrival) : Entry :=
  .ofCommand a.time .unavailable a.call.command none a.call.directory

end Arrival

/-- The host after some runs. -/
def hostAfter (host : Host) (arrivals : List Arrival) : Host :=
  arrivals.foldl Arrival.step host

/-- The configuration is the one in force at every run. -/
def IsFixed (config : Option Config) : Host → List Arrival → Prop
  | _, [] => True
  | host, a :: rest =>
    Config.inForce? (a.meet host) a.call.directory = .ok config ∧ IsFixed config (a.step host) rest

/-! ## What is to be logged -/

section Logged

variable (rewriter : Rewriter)

/-- What a log has to say of the commands that arrived in its sessions: an entry for each that the
compact tool was there for, and a notice at the first that it was missing for. -/
def logged (arrivals : List Arrival) : List Entry :=
  (arrivals.takeWhile (·.hasTool)).map (·.entry rewriter) ++
    match arrivals.dropWhile (·.hasTool) with
    | [] => []
    | first :: later => first.notice :: (later.filter (·.hasTool)).map (·.entry rewriter)

/-- What a run puts into its log, given whether the log has a notice. -/
def addition? (isWarned : Bool) (a : Arrival) : Option Entry :=
  if a.hasTool then some (a.entry rewriter) else if isWarned then none else some a.notice

variable {rewriter} in
theorem logged_cons_of_hasTool {a : Arrival} (h : a.hasTool = true) (rest : List Arrival) :
    logged rewriter (a :: rest) = a.entry rewriter :: logged rewriter rest := by
  rw [logged, List.takeWhile_cons, List.dropWhile_cons, h, if_pos rfl, if_pos rfl]
  rfl

variable {rewriter} in
theorem logged_cons_of_missing {a : Arrival} (h : a.hasTool = false) (rest : List Arrival) :
    logged rewriter (a :: rest) =
      a.notice :: (rest.filter (·.hasTool)).map (·.entry rewriter) := by
  rw [logged, List.takeWhile_cons, List.dropWhile_cons, h, if_neg Bool.false_ne_true,
    if_neg Bool.false_ne_true]
  rfl

/-- **One more command calls for what its run adds.** -/
theorem logged_concat (past : List Arrival) (a : Arrival) :
    logged rewriter (past ++ [a]) =
      logged rewriter past ++ (addition? rewriter (!past.all (·.hasTool)) a).toList := by
  induction past with
  | nil =>
    cases ha : a.hasTool with
    | true =>
      rw [List.nil_append, logged_cons_of_hasTool ha, addition?, ha, if_pos rfl]
      rfl
    | false =>
      rw [List.nil_append, logged_cons_of_missing ha, addition?, ha, if_neg Bool.false_ne_true]
      rfl
  | cons first past ih =>
    rw [List.cons_append, List.all_cons]
    cases hfirst : first.hasTool with
    | true =>
      rw [logged_cons_of_hasTool hfirst, logged_cons_of_hasTool hfirst, ih, Bool.true_and,
        List.cons_append]
    | false =>
      rw [logged_cons_of_missing hfirst, logged_cons_of_missing hfirst, List.filter_append,
        List.map_append, Bool.false_and, Bool.not_false, List.cons_append, addition?]
      cases ha : a.hasTool with
      | true => rw [List.filter_cons_of_pos ha]; rfl
      | false => rw [List.filter_cons_of_neg (by rw [ha]; exact Bool.false_ne_true)]; rfl

/-- The log has a notice if the compact tool was ever missing. -/
theorem any_isAbout_logged (arrivals : List Arrival) :
    ((logged rewriter arrivals).map Entry.members).any (isAbout .unavailable) =
      !arrivals.all (·.hasTool) := by
  have hentry : ∀ a : Arrival, isAbout .unavailable (a.entry rewriter).members = false := by
    intro a
    rw [isAbout_members]
    unfold Arrival.entry
    dsimp only [Entry.ofCommand]
    split <;> rfl
  induction arrivals with
  | nil => rfl
  | cons a rest ih =>
    cases ha : a.hasTool with
    | true =>
      rw [logged_cons_of_hasTool ha, List.map_cons, List.any_cons, hentry, Bool.false_or, ih,
        List.all_cons, ha, Bool.true_and]
    | false =>
      rw [logged_cons_of_missing ha, List.map_cons, List.any_cons, List.all_cons, ha,
        isAbout_members]
      rfl

end Logged

/-! ## One run -/

section Step

variable {host : Host} {config : Option Config} {call : ToolCall}

theorem run_eq_of_answer {time : String} {text : List Char} {result : Answer} {after : Host}
    (hreads : ToolCall.ofText? host.rooms.event text = .ok (some call))
    (h : answer host time call = .ok (result, after)) : (run host time text).2 = after := by
  rw [run, hreads]
  dsimp only [bind, Except.bind]
  rw [h]

theorem handle_new (rewriter : Rewriter) {command : List Char} (h : command ≠ []) :
    ∃ session, (Session.new rewriter true true).handle command =
      (rewriter.rewrite? command, session) := by
  have hempty : command.isEmpty = false := List.isEmpty_eq_false_iff.2 h
  rw [Session.handle, hempty]
  exact ⟨_, rfl⟩

/-- What the hook does about a call that it goes on with. -/
def proceed (host : Host) (time : String) (call : ToolCall) (rewriter : Rewriter) :
    Except Failure (Answer × Host) :=
  if host.hasTool then
    match rewriter.rewrite? call.command with
    | none => .ok (.silence, record host time call.log? .pass call none)
    | some rewrite =>
      .ok (.update (call.input.put "command" (textValue rewrite.command)),
        record host time call.log? .rewrite call (some rewrite))
  else Hook.warn host time call.log? call Session.missingToolWarning

/-- **The configuration decides whether the hook goes on, and what it rewrites with.** -/
theorem answer_eq (hcommand : call.command ≠ [])
    (hconfig : Config.inForce? host call.directory = .ok config) (time : String) :
    answer host time call =
      if Config.isRewriting host config then
        proceed host time call (Config.rewriter host config)
      else .ok (.silence, host) := by
  unfold answer
  rw [hconfig]
  dsimp only [bind, Except.bind]
  cases hrewriting : Config.isRewriting host config with
  | false =>
    rw [Bool.not_false, if_pos rfl, if_neg Bool.false_ne_true]
    rfl
  | true =>
    rw [Bool.not_true, if_neg Bool.false_ne_true, if_pos rfl, proceed]
    cases htool : host.hasTool with
    | false =>
      rw [if_neg Bool.false_ne_true]
      rfl
    | true =>
      have hquiet : (Session.new (Config.rewriter host config) true true).warning? =
          (none, Session.new (Config.rewriter host config) true true) := rfl
      obtain ⟨session, hhandle⟩ := handle_new (Config.rewriter host config) hcommand
      rw [if_pos rfl, hquiet]
      dsimp only
      rw [hhandle]
      cases (Config.rewriter host config).rewrite? call.command with
      | none => rfl
      | some rewrite => rfl

/-- With the compact tool there, every command is logged. -/
theorem answer_of_hasTool (hconfig : Config.inForce? host call.directory = .ok config)
    (hrewriting : Config.isRewriting host config = true) (htool : host.hasTool = true)
    (hcommand : call.command ≠ []) (time : String) :
    ∃ result, answer host time call =
      .ok (result, record host time call.log?
        (if ((Config.rewriter host config).rewrite? call.command).isSome then .rewrite else .pass)
        call ((Config.rewriter host config).rewrite? call.command)) := by
  rw [answer_eq hcommand hconfig, if_pos hrewriting, proceed, if_pos htool]
  cases (Config.rewriter host config).rewrite? call.command with
  | none => exact ⟨_, rfl⟩
  | some rewrite => exact ⟨_, rfl⟩

/-- Without the compact tool, only the notice is logged, and only where there is none yet. -/
theorem answer_of_missing (hconfig : Config.inForce? host call.directory = .ok config)
    (hrewriting : Config.isRewriting host config = true) (htool : host.hasTool = false)
    (hcommand : call.command ≠ []) {isWarned : Name → Bool}
    (hwarned : ∀ file, call.log? = some file →
      Log.isWarned host (Log.path host file) = .ok (isWarned file)) (time : String) :
    ∃ result, answer host time call =
      .ok (result, if call.log?.all isWarned then host
        else record host time call.log? .unavailable call none) := by
  rw [answer_eq hcommand hconfig, if_pos hrewriting, proceed, htool, if_neg Bool.false_ne_true]
  cases hlog : call.log? with
  | none => exact ⟨_, rfl⟩
  | some file =>
    rw [warn, hwarned file hlog, Option.all_some]
    cases isWarned file with
    | true => exact ⟨_, rfl⟩
    | false => exact ⟨_, rfl⟩

variable {a : Arrival}

/-- A run on a command without a log leaves nothing. -/
theorem Arrival.step_of_log?_eq_none
    (hconfig : Config.inForce? (a.meet host) a.call.directory = .ok config)
    (hrewriting : Config.isRewriting host config = true) (hlog : a.call.log? = none) :
    a.step host = a.meet host := by
  cases htool : a.hasTool with
  | true =>
    obtain ⟨result, hresult⟩ := answer_of_hasTool hconfig hrewriting htool
      (ToolCall.command_ne_nil a.reads) a.time
    rw [step, run_eq_of_answer a.reads hresult, hlog]
    rfl
  | false =>
    have hwarned : ∀ file, a.call.log? = some file →
        Log.isWarned (a.meet host) (Log.path (a.meet host) file) = .ok false := by
      intro file hfile
      rw [hlog] at hfile
      cases hfile
    obtain ⟨result, hresult⟩ := answer_of_missing hconfig hrewriting htool
      (ToolCall.command_ne_nil a.reads) hwarned a.time
    rw [step, run_eq_of_answer a.reads hresult, hlog]
    rfl

/-- **A run leaves in its log the entry that it adds.** -/
theorem Arrival.step_of_log?_eq_some
    (hconfig : Config.inForce? (a.meet host) a.call.directory = .ok config)
    (hrewriting : Config.isRewriting host config = true) {file : Name}
    (hlog : a.call.log? = some file) {isWarned : Bool}
    (hwarned : Log.isWarned (a.meet host) (Log.path (a.meet host) file) = .ok isWarned) :
    a.step host =
      match addition? (Config.rewriter host config) isWarned a with
      | none => a.meet host
      | some entry => Log.append (a.meet host) file entry := by
  cases htool : a.hasTool with
  | true =>
    obtain ⟨result, hresult⟩ := answer_of_hasTool hconfig hrewriting htool
      (ToolCall.command_ne_nil a.reads) a.time
    rw [step, run_eq_of_answer a.reads hresult, hlog, addition?, htool]
    rfl
  | false =>
    have hwarned' : ∀ other, a.call.log? = some other →
        Log.isWarned (a.meet host) (Log.path (a.meet host) other) = .ok isWarned := by
      intro other hother
      rw [hlog] at hother
      cases hother
      exact hwarned
    obtain ⟨result, hresult⟩ := answer_of_missing hconfig hrewriting htool
      (ToolCall.command_ne_nil a.reads) hwarned' a.time
    rw [step, run_eq_of_answer a.reads hresult, hlog, addition?, htool,
      if_neg Bool.false_ne_true, Option.all_some]
    cases isWarned with
    | true => rfl
    | false => rfl

end Step

/-! ## Whole runs -/

/-- The host is what runs on some commands have left: every log holds what is to be logged of the
commands in it, and nothing has changed that the next run depends on. -/
structure Follows (config : Option Config) (rewriter : Rewriter) (past : List Arrival)
    (host : Host) : Prop where
  isWritable : IsWritable host
  isRewriting : Config.isRewriting host config = true
  rewriter_eq : Config.rewriter host config = rewriter
  holds : ∀ session file, fileName? session = some file →
    Holds host file (logged rewriter (past.filter (·.isIn file)))

section Run

variable {config : Option Config} {rewriter : Rewriter} {past : List Arrival} {host : Host}

theorem exists_session {call : ToolCall} {file : Name} (h : call.log? = some file) :
    ∃ session, fileName? session = some file := by
  obtain ⟨session, -, hfile⟩ := Option.bind_eq_some_iff.1 h
  exact ⟨session.toList, hfile⟩

theorem logged_of_isIn {a : Arrival} {file : Name} (h : a.call.log? = some file) :
    logged rewriter ((past ++ [a]).filter (·.isIn file)) =
      logged rewriter (past.filter (·.isIn file)) ++
        (addition? rewriter (!(past.filter (·.isIn file)).all (·.hasTool)) a).toList := by
  have hin : a.isIn file = true := beq_iff_eq.2 h
  rw [List.filter_append, List.filter_cons_of_pos hin, List.filter_nil, logged_concat]

theorem logged_of_not_isIn {a : Arrival} {file : Name} (h : a.call.log? ≠ some file) :
    logged rewriter ((past ++ [a]).filter (·.isIn file)) =
      logged rewriter (past.filter (·.isIn file)) := by
  have hin : ¬ a.isIn file = true := fun hin => h (beq_iff_eq.1 hin)
  rw [List.filter_append, List.filter_cons_of_neg hin, List.filter_nil, List.append_nil]

/-- What a run meets is as the runs before it left it. -/
theorem Follows.meet (h : Follows config rewriter past host) (a : Arrival) :
    Follows config rewriter past (a.meet host) :=
  ⟨⟨h.isWritable.plain, h.isWritable.isOpen⟩, h.isRewriting, h.rewriter_eq, h.holds⟩

/-- A run that adds nothing keeps the logs as they are to be. -/
theorem Follows.concat (h : Follows config rewriter past host) (a : Arrival)
    (hadds : ∀ file, a.call.log? = some file →
      addition? rewriter (!(past.filter (·.isIn file)).all (·.hasTool)) a = none) :
    Follows config rewriter (past ++ [a]) host := by
  refine ⟨h.isWritable, h.isRewriting, h.rewriter_eq, fun session file hfile => ?_⟩
  by_cases hlog : a.call.log? = some file
  · rw [logged_of_isIn hlog, hadds file hlog, Option.toList_none, List.append_nil]
    exact h.holds session file hfile
  · rw [logged_of_not_isIn hlog]
    exact h.holds session file hfile

/-- A run that adds an entry to its log keeps the logs as they are to be. -/
theorem Follows.append (h : Follows config rewriter past host) {a : Arrival} {file : Name}
    (hlog : a.call.log? = some file) {entry : Entry}
    (hadds : addition? rewriter (!(past.filter (·.isIn file)).all (·.hasTool)) a = some entry) :
    Follows config rewriter (past ++ [a]) (Log.append host file entry) := by
  obtain ⟨session, hfile⟩ := exists_session hlog
  have hown := h.holds session file hfile
  refine ⟨hown.isWritable_append h.isWritable entry, ?_, ?_, fun session other hother => ?_⟩
  · rw [Config.isRewriting, Config.isDisabledBy, variableValue?, append_environment]
    exact h.isRewriting
  · rw [Config.rewriter, Config.isThroughOperators, variableValue?, append_environment]
    exact h.rewriter_eq
  · by_cases hsame : other = file
    · subst hsame
      rw [logged_of_isIn hlog, hadds, Option.toList_some]
      exact hown.append h.isWritable entry
    · have hne : a.call.log? ≠ some other := by
        intro heq
        exact hsame (Option.some.inj (heq.symm.trans hlog))
      rw [logged_of_not_isIn hne]
      exact (h.holds session other hother).append_other hown h.isWritable entry hsame

/-- **Each run keeps the logs as they are to be.** -/
theorem Follows.step (h : Follows config rewriter past host) {a : Arrival}
    (hconfig : Config.inForce? (a.meet host) a.call.directory = .ok config) :
    Follows config rewriter (past ++ [a]) (a.step host) := by
  have hmeet := h.meet a
  cases hlog : a.call.log? with
  | none =>
    rw [Arrival.step_of_log?_eq_none hconfig h.isRewriting hlog]
    refine hmeet.concat a fun file hfile => ?_
    rw [hlog] at hfile
    cases hfile
  | some file =>
    obtain ⟨session, hfile⟩ := exists_session hlog
    have hwarned : Log.isWarned (a.meet host) (Log.path (a.meet host) file) =
        .ok (!(past.filter (·.isIn file)).all (·.hasTool)) := by
      rw [(hmeet.holds session file hfile).isWarned hmeet.isWritable
        (isPlainName_of_fileName? hfile), any_isAbout_logged]
    rw [Arrival.step_of_log?_eq_some hconfig h.isRewriting hlog hwarned, h.rewriter_eq]
    cases hadds : addition? rewriter (!(past.filter (·.isIn file)).all (·.hasTool)) a with
    | none =>
      refine hmeet.concat a fun other hother => ?_
      obtain rfl : file = other := Option.some.inj (hlog.symm.trans hother)
      exact hadds
    | some entry => exact hmeet.append hlog hadds

/-- **After any run of the hook the logs are as they are to be.** -/
theorem Follows.hostAfter {arrivals : List Arrival} (h : Follows config rewriter past host)
    (hfixed : IsFixed config host arrivals) :
    Follows config rewriter (past ++ arrivals) (Hook.hostAfter host arrivals) := by
  induction arrivals generalizing past host with
  | nil =>
    rw [List.append_nil]
    exact h
  | cons a rest ih =>
    rw [List.append_cons]
    exact ih (h.step hfixed.1) hfixed.2

end Run

end Hook

end CompactShell.Command
