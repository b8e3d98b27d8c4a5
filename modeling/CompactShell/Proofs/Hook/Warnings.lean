import CompactShell.Proofs.Hook.Agreement
import CompactShell.Proofs.Hook.Responses
import CompactShell.Proofs.Log.Endings

/-!
# How often the missing tool is warned of

The hook has no memory but the log: it warns of the missing tool unless the session's log has a
notice of it, and leaves a notice when it does (`Run.warns_iff`). So a session is warned once if the
notice is there to be read in the next run, which needs two things of the log. Nothing may be in its
way (`IsLoggable`), and its last line has to be complete (`IsComplete`).

A log that has been written once is complete. So where only the last line was broken off, by
whatever wrote the log before, a session is warned twice at most. But where something is in the way
no notice is ever left, and the session is warned every time there is reason to
(`warnings_per_session`).
-/

namespace CompactShell.Command

open Host Json Log Text

namespace Hook

/-! ## Runs -/

/-- A run of the hook: the event that it is given, and what has changed about the host since the run
before. The files are as that run has left them. -/
structure Run where
  rooms : Host.Rooms
  text : List Char
  /-- The time that is written into the log. -/
  time : String
  current : Location
  environment : List (String × String)
  hasTool : Bool
  /-- The time on the clock of changes. -/
  now : Nat

namespace Run

/-- The host as the hook meets it. -/
def meet (r : Run) (host : Host) : Host :=
  { host with
    current := r.current, environment := r.environment, hasTool := r.hasTool, now := r.now
    rooms := r.rooms }

/-- What the hook prints, and how it ends. -/
def outcome (host : Host) (r : Run) : Outcome :=
  (Hook.run (r.meet host) r.time r.text).1

/-- The host as the hook leaves it. -/
def leave (host : Host) (r : Run) : Host :=
  (Hook.run (r.meet host) r.time r.text).2

/-- The call that the hook is told of. -/
def call? (r : Run) : Option ToolCall :=
  (ToolCall.ofText? r.rooms.event r.text).toOption.join

/-- The run is one of the session with this log. -/
def isIn (file : Name) (r : Run) : Bool :=
  r.call?.bind ToolCall.log? == some file

/-- The hook prints the warning of the missing tool. -/
def warns (host : Host) (r : Run) : Bool :=
  (r.outcome host).output == (Answer.warning Session.missingToolWarning).output

/-- There is reason to warn: the hook is told of a call, rewriting is on, and the tool is missing. -/
def isDue (host : Host) (r : Run) : Bool :=
  !r.hasTool && r.call?.any fun call =>
    (Config.inForce? (r.meet host) call.directory).toOption.any fun config =>
      Config.isRewriting (r.meet host) config

end Run

/-- How many of the runs have a property, each on the host that those before it have left. -/
def countRuns (p : Host → Run → Bool) : Host → List Run → Nat
  | _, [] => 0
  | host, r :: rest => (if p host r then 1 else 0) + countRuns p (r.leave host) rest

/-- How often a session is warned. -/
def warnings (file : Name) (host : Host) (runs : List Run) : Nat :=
  countRuns (fun host r => r.isIn file && r.warns host) host runs

/-- How often there is reason to warn a session. -/
def occasions (file : Name) (host : Host) (runs : List Run) : Nat :=
  countRuns (fun host r => r.isIn file && r.isDue host) host runs

variable {host : Host} {file other : Name} {r : Run}

/-! ## One run -/

/-- What is printed for an update is no warning. -/
theorem output_update_ne (input : Members) :
    (Answer.update input).output ≠ (Answer.warning Session.missingToolWarning).output := by
  intro h
  have hfront := congrArg (fun output => output.toList.take 3) h
  simp only [Answer.output, Answer.value?, String.toList_ofList] at hfront
  -- the first letters of the only members tell the two apart
  have hupdate : ['\x7b', '"', 'h'] = ['\x7b', '"', 's'] := hfront
  exact absurd hupdate (by decide)

theorem output_silence_ne :
    Answer.silence.output ≠ (Answer.warning Session.missingToolWarning).output := by
  intro h
  have hlist := congrArg String.toList h
  simp only [Answer.output, Answer.value?, String.toList_ofList] at hlist
  exact List.append_ne_nil_of_right_ne_nil _ (by simp) hlist.symm

theorem Run.call?_eq_some_iff {call : ToolCall} :
    r.call? = some call ↔ ToolCall.ofText? r.rooms.event r.text = .ok (some call) := by
  unfold call?
  cases ToolCall.ofText? r.rooms.event r.text with
  | error failure => exact iff_of_false (fun h => by cases h) (fun h => by cases h)
  | ok call? =>
    show call? = some call ↔ Except.ok call? = .ok (some call)
    rw [Except.ok.injEq]

/-- The hook is about to warn: there is reason to, and the log of the session does not say that this
has been done. -/
structure Run.IsAboutToWarn (host : Host) (r : Run) (call : ToolCall) (file : Name) : Prop where
  reads : r.call? = some call
  isDue : r.isDue host = true
  log : call.log? = some file
  unknown : isWarned (r.meet host) (path host file) = .ok false

theorem Run.isDue_iff {call : ToolCall} (hcall : r.call? = some call) :
    r.isDue host = true ↔ r.hasTool = false ∧
      ∃ config, Config.inForce? (r.meet host) call.directory = .ok config ∧
        Config.isRewriting (r.meet host) config = true := by
  unfold isDue
  rw [hcall, Option.any_some, Bool.and_eq_true, Bool.not_eq_true']
  refine and_congr_right fun _ => ?_
  cases Config.inForce? (r.meet host) call.directory with
  | error failure =>
    refine iff_of_false Bool.false_ne_true ?_
    intro hon
    obtain ⟨config, hconfig, _⟩ := hon
    cases hconfig
  | ok config =>
    simp only [Except.ok.injEq, exists_eq_left']
    rfl

/-- A run that is about to warn warns, and leaves a notice. -/
theorem Run.IsAboutToWarn.run_eq {call : ToolCall} (h : r.IsAboutToWarn host call file) :
    Hook.run (r.meet host) r.time r.text =
      (⟨(Answer.warning Session.missingToolWarning).output, "", .ok 0⟩,
        Log.append (r.meet host) file
          (.ofCommand r.time .unavailable call.command none call.directory)) := by
  obtain ⟨htool, config, hconfig, hrewriting⟩ := (isDue_iff h.reads).1 h.isDue
  have hunknown : isWarned (r.meet host) (path (r.meet host) file) = .ok false := h.unknown
  have hmissing : (r.meet host).hasTool = false := htool
  have hreads : ToolCall.ofText? (r.meet host).rooms.event r.text = .ok (some call) :=
    call?_eq_some_iff.1 h.reads
  have hanswer : answer (r.meet host) r.time call =
      .ok (.warning Session.missingToolWarning, Log.append (r.meet host) file
        (.ofCommand r.time .unavailable call.command none call.directory)) := by
    rw [answer_eq (ToolCall.command_ne_nil hreads) hconfig, if_pos hrewriting, proceed, hmissing,
      if_neg Bool.false_ne_true, h.log, Hook.warn, hunknown]
    rfl
  rw [Hook.run, hreads]
  dsimp only [bind, Except.bind]
  rw [hanswer]

/-- **When the hook warns.** -/
theorem Run.warns_iff : r.warns host = true ↔ ∃ call file, r.IsAboutToWarn host call file := by
  constructor
  · intro hwarns
    have houtput := beq_iff_eq.1 hwarns
    unfold outcome at houtput
    rcases run_cases (r.meet host) r.time r.text with ⟨hnothing, -⟩ | ⟨call, config, result, after,
      hreads, hconfig, hresponds, hrun⟩
    · rw [hnothing] at houtput
      exact absurd houtput output_silence_ne
    · rw [hrun] at houtput
      cases hresponds with
      | off => exact absurd houtput output_silence_ne
      | update => exact absurd houtput (output_update_ne _)
      | pass => exact absurd houtput output_silence_ne
      | unlogged => exact absurd houtput output_silence_ne
      | known => exact absurd houtput output_silence_ne
      | warn hrewriting htool hlog hunknown =>
        have hcall := call?_eq_some_iff.2 hreads
        exact ⟨call, _, hcall, (isDue_iff hcall).2 ⟨htool, config, hconfig, hrewriting⟩, hlog,
          hunknown⟩
  · intro habout
    obtain ⟨call, file, h⟩ := habout
    rw [warns, outcome, h.run_eq]
    exact beq_self_eq_true _

/-- A run leaves the files as they were, or with an entry more in the log of its session. -/
theorem Run.leave_cases (host : Host) (r : Run) : r.leave host = r.meet host ∨
    ∃ call file entry, r.call? = some call ∧ call.log? = some file ∧
      r.leave host = Log.append (r.meet host) file entry := by
  unfold leave
  rcases run_cases (r.meet host) r.time r.text with ⟨-, hhost⟩ | ⟨call, config, result, after,
    hreads, -, hresponds, hrun⟩
  · exact .inl hhost
  · rw [hrun]
    rcases hresponds.host_cases with hhost | ⟨file, entry, hlog, happend⟩
    · exact .inl hhost
    · exact .inr ⟨call, file, entry, call?_eq_some_iff.2 hreads, hlog, happend⟩

/-! ## What a run does to a log -/

theorem Run.home_leave (host : Host) (r : Run) : (r.leave host).home = host.home := by
  rcases r.leave_cases host with h | ⟨call, file, entry, -, -, h⟩
  · rw [h]
    rfl
  · rw [h, append_home]
    rfl

theorem Run.isPlainName_home_leave (h : ∀ name ∈ host.home, IsPlainName name) (r : Run) :
    ∀ name ∈ (r.leave host).home, IsPlainName name := by
  rw [home_leave]
  exact h

theorem Run.isLoggable_leave_iff (host : Host) (file : Name) (r : Run) :
    IsLoggable (r.leave host) file ↔ IsLoggable host file := by
  rcases r.leave_cases host with h | ⟨call, other, entry, -, -, h⟩
  · rw [h]
    exact Iff.rfl
  · rw [h, isLoggable_append_iff]
    exact Iff.rfl

/-- A run leaves a log as it was, or with a line more. -/
theorem Run.logBytes_leave_cases (host : Host) (file : Name) (r : Run) :
    logBytes (r.leave host) file = logBytes host file ∨ ∃ entry : Entry,
      logBytes (r.leave host) file = logBytes host file ++ Utf8.encode entry.line := by
  rcases r.leave_cases host with h | ⟨call, other, entry, -, -, h⟩
  · left
    rw [h]
    rfl
  · rw [h]
    rcases logBytes_append_cases (r.meet host) other file entry with hsame | hmore
    · exact .inl hsame
    · exact .inr ⟨entry, hmore⟩

theorem Run.isComplete_leave (h : IsComplete (logBytes host file)) (r : Run) :
    IsComplete (logBytes (r.leave host) file) := by
  rcases r.logBytes_leave_cases host file with hsame | ⟨entry, hmore⟩
  · rw [hsame]
    exact h
  · rw [hmore]
    exact isComplete_append _ entry

/-- The log of a session is complete, and if it can be read it says that the tool is missing. -/
structure IsSettled (host : Host) (file : Name) : Prop where
  made : host.files.IsMade (directory host)
  complete : IsComplete (logBytes host file)
  noted : IsNoted (logBytes host file)

/-- **A settled log stays settled.** -/
theorem IsSettled.leave (h : IsSettled host file) (r : Run) : IsSettled (r.leave host) file where
  made := by
    rcases r.leave_cases host with hleave | ⟨call, other, entry, -, -, hleave⟩
    · rw [hleave]
      exact h.made
    · have hmade : (r.meet host).files.IsMade (directory (r.meet host)) := h.made
      rw [hleave, directory_append]
      exact IsMade.append hmade other entry
  complete := Run.isComplete_leave h.complete r
  noted := by
    rcases r.logBytes_leave_cases host file with hsame | ⟨entry, hmore⟩
    · rw [hsame]
      exact h.noted
    · rw [hmore]
      exact h.noted.append h.complete entry

/-- A warning of a session that has this log. -/
theorem Run.isIn_and_warns_iff : (r.isIn file && r.warns host) = true ↔
    ∃ call, r.IsAboutToWarn host call file := by
  rw [Bool.and_eq_true, warns_iff, isIn, beq_iff_eq]
  constructor
  · intro hboth
    obtain ⟨hfile, call, other, h⟩ := hboth
    rw [h.reads, Option.bind_some, h.log, Option.some.injEq] at hfile
    exact ⟨call, hfile ▸ h⟩
  · intro habout
    obtain ⟨call, h⟩ := habout
    exact ⟨by rw [h.reads, Option.bind_some, h.log], call, file, h⟩

/-- A run that is about to warn puts a notice behind the log. -/
theorem Run.IsAboutToWarn.logBytes_leave {call : ToolCall} (h : r.IsAboutToWarn host call file)
    (hloggable : IsLoggable host file) : ∃ entry : Entry, entry.event = .unavailable ∧
      logBytes (r.leave host) file = logBytes host file ++ Utf8.encode entry.line := by
  refine ⟨.ofCommand r.time .unavailable call.command none call.directory, rfl, ?_⟩
  have hmeet : IsLoggable (r.meet host) file := hloggable
  rw [leave, h.run_eq]
  exact logBytes_append hmeet _

/-- A session that is warned has a settled log afterwards, if its log was complete. -/
theorem Run.IsAboutToWarn.isSettled_leave {call : ToolCall} (h : r.IsAboutToWarn host call file)
    (hloggable : IsLoggable host file) (hcomplete : IsComplete (logBytes host file)) :
    IsSettled (r.leave host) file where
  made := by
    have hmeet : IsLoggable (r.meet host) file := hloggable
    rw [leave, h.run_eq, directory_append]
    exact isMade_append hmeet _
  complete := isComplete_leave hcomplete r
  noted := by
    obtain ⟨entry, hevent, hmore⟩ := h.logBytes_leave hloggable
    rw [hmore]
    exact isNoted_notice hcomplete hevent

/-! ## What the hook reads in a log -/

section Reading

variable (hplain : ∀ name ∈ directory host ++ [file], IsPlainName name)

include hplain

/-- **A session with a settled log is not warned.** -/
theorem IsSettled.not_isAboutToWarn (h : IsSettled host file) (r : Run) (call : ToolCall) :
    ¬ r.IsAboutToWarn host call file := by
  intro hwarns
  have hread : entriesAt (r.meet host) (path (r.meet host) file) =
      entriesIn r.rooms.log (logBytes host file) := by
    have hmade : (r.meet host).files.IsMade (directory (r.meet host)) := h.made
    exact entriesAt_of_isMade hplain hmade
  have hunknown : isWarned (r.meet host) (path (r.meet host) file) = .ok false := hwarns.unknown
  rw [isWarned, hread] at hunknown
  cases hentries : entriesIn r.rooms.log (logBytes host file) with
  | error failure =>
    -- a run that cannot read the log fails, and a failure is no warning
    rw [hentries] at hunknown
    cases hunknown
  | ok entries =>
    rw [hentries] at hunknown
    have hany : entries.any (isAbout .unavailable) = false := Except.ok.inj hunknown
    rw [h.noted _ entries (r.rooms.log_holds.mono (by decide)) hentries] at hany
    cases hany

/-- Where something is in the way of a log, no notice is ever found. -/
theorem isWarned_of_not_isLoggable (h : ¬ IsLoggable host file) :
    isWarned host (path host file) = .ok false := by
  by_cases hmade : host.files.IsMade (directory host)
  · -- the log itself is a directory, which is read as a log without bytes
    have hdirectory : host.files.isDirectory (directory host ++ [file]) = true :=
      Bool.not_eq_false _ |>.mp fun hlog => h ⟨hmade.isOpen, hlog⟩
    have hbytes : logBytes host file = [] := by
      unfold Files.isDirectory at hdirectory
      unfold logBytes Files.bytes
      split at hdirectory
      · rename_i hplace
        rw [hplace]
      · cases hdirectory
    rw [isWarned, entriesAt_of_isMade hplain hmade, hbytes]
    rfl
  · rw [isWarned, entriesAt_of_not_isMade hplain hmade]
    rfl

/-- Where something is in the way of its log, a session is warned whenever there is reason to. -/
theorem Run.warns_eq_isDue (h : ¬ IsLoggable host file) (r : Run) :
    (r.isIn file && r.warns host) = (r.isIn file && r.isDue host) := by
  rw [Bool.eq_iff_iff, isIn_and_warns_iff, Bool.and_eq_true, isIn, beq_iff_eq]
  constructor
  · intro habout
    obtain ⟨call, hwarns⟩ := habout
    exact ⟨by rw [hwarns.reads, Option.bind_some, hwarns.log], hwarns.isDue⟩
  · intro hboth
    obtain ⟨hfile, hdue⟩ := hboth
    obtain ⟨call, hcall, hlog⟩ := Option.bind_eq_some_iff.1 hfile
    have hmeet : ¬ IsLoggable (r.meet host) file := h
    exact ⟨call, hcall, hdue, hlog, isWarned_of_not_isLoggable hplain hmeet⟩

end Reading

/-! ## Runs of a session -/

theorem warnings_cons (file : Name) (host : Host) (r : Run) (rest : List Run) :
    warnings file host (r :: rest) =
      (if r.isIn file && r.warns host then 1 else 0) + warnings file (r.leave host) rest := rfl

theorem occasions_cons (file : Name) (host : Host) (r : Run) (rest : List Run) :
    occasions file host (r :: rest) =
      (if r.isIn file && r.isDue host then 1 else 0) + occasions file (r.leave host) rest := rfl

/-- A run on a command in a session, while the tool is missing. -/
def Run.missing (session command : String) (now : Nat) : Run :=
  ⟨.unlimited, Json.write (commandEvent session command), stamp now, [], [], false, now⟩

section Sessions

variable (hhome : ∀ name ∈ host.home, IsPlainName name) (hfile : IsPlainName file)

include hhome hfile

theorem IsSettled.warnings_eq_zero (h : IsSettled host file) (runs : List Run) :
    warnings file host runs = 0 := by
  induction runs generalizing host with
  | nil => rfl
  | cons r rest ih =>
    have hquiet : ¬ (r.isIn file && r.warns host) = true := by
      rw [Run.isIn_and_warns_iff]
      intro habout
      obtain ⟨call, hwarns⟩ := habout
      exact h.not_isAboutToWarn (plain_path hhome hfile) r call hwarns
    have hhome' := r.isPlainName_home_leave hhome
    rw [warnings_cons, if_neg hquiet, ih hhome' (h.leave r)]

/-- A session with a complete log is warned once. -/
theorem warnings_le_one (hloggable : IsLoggable host file)
    (hcomplete : IsComplete (logBytes host file)) (runs : List Run) :
    warnings file host runs ≤ 1 := by
  induction runs generalizing host with
  | nil => exact Nat.zero_le 1
  | cons r rest ih =>
    have hhome' := r.isPlainName_home_leave hhome
    rw [warnings_cons]
    by_cases hwarns : (r.isIn file && r.warns host) = true
    · -- the first warning settles the log, and then no other is given
      obtain ⟨call, habout⟩ := Run.isIn_and_warns_iff.1 hwarns
      have hsettled := habout.isSettled_leave hloggable hcomplete
      rw [if_pos hwarns, hsettled.warnings_eq_zero hhome' hfile rest]
    · rw [if_neg hwarns, Nat.zero_add]
      exact ih hhome' ((Run.isLoggable_leave_iff host file r).2 hloggable)
        (Run.isComplete_leave hcomplete r)

/-- The first notice may be lost with the broken line that it is written behind. It ends that line,
so the second is found. -/
theorem warnings_le_two (hloggable : IsLoggable host file) (runs : List Run) :
    warnings file host runs ≤ 2 := by
  induction runs generalizing host with
  | nil => exact Nat.zero_le 2
  | cons r rest ih =>
    have hhome' := r.isPlainName_home_leave hhome
    have hloggable' := (Run.isLoggable_leave_iff host file r).2 hloggable
    rw [warnings_cons]
    by_cases hwarns : (r.isIn file && r.warns host) = true
    · -- whatever stood in the log, it is complete behind the notice
      obtain ⟨call, habout⟩ := Run.isIn_and_warns_iff.1 hwarns
      obtain ⟨entry, -, hbytes⟩ := habout.logBytes_leave hloggable
      have hcomplete : IsComplete (logBytes (r.leave host) file) := by
        rw [hbytes]
        exact isComplete_append _ entry
      have hrest := warnings_le_one hhome' hfile hloggable' hcomplete rest
      rw [if_pos hwarns]
      omega
    · rw [if_neg hwarns, Nat.zero_add]
      exact ih hhome' hloggable'

/-- The notice is put behind a line that is broken off, so the next run does not find it. -/
example : warnings "a.jsonl".toList
    (storeHost [(directory bareHost, .directory 0),
      (directory bareHost ++ ["a.jsonl".toList], .file [0x7B] 0)])
    [.missing "a" "ls" 1, .missing "a" "ls" 2] = 2 := by
  decide +kernel

/-- Where something is in the way of its log, a session is warned over and over. -/
theorem warnings_eq_occasions (hblocked : ¬ IsLoggable host file) (runs : List Run) :
    warnings file host runs = occasions file host runs := by
  induction runs generalizing host with
  | nil => rw [warnings, occasions, countRuns, countRuns]
  | cons r rest ih =>
    have hhome' := r.isPlainName_home_leave hhome
    have hblocked' : ¬ IsLoggable (r.leave host) file := by
      rw [Run.isLoggable_leave_iff]
      exact hblocked
    rw [warnings_cons, occasions_cons, r.warns_eq_isDue (plain_path hhome hfile) hblocked,
      ih hhome' hblocked']

end Sessions

/-- **How often a session is warned of the missing tool.** Where nothing is in the way of its log, it
is warned at most once if the last line of the log is complete, and at most twice if it is not. Where
something is in the way, it is warned every time there is reason to. -/
theorem warnings_per_session {host : Host} (hhome : ∀ name ∈ host.home, IsPlainName name)
    {session : List Char} {file : Name} (hfile : fileName? session = some file)
    (runs : List Run) :
    (IsLoggable host file → IsComplete (logBytes host file) → warnings file host runs ≤ 1) ∧
      (IsLoggable host file → warnings file host runs ≤ 2) ∧
      (¬ IsLoggable host file → warnings file host runs = occasions file host runs) := by
  have hplain := isPlainName_of_fileName? hfile
  refine ⟨?_, ?_, ?_⟩
  · intro hloggable hcomplete
    exact warnings_le_one hhome hplain hloggable hcomplete runs
  · intro hloggable
    exact warnings_le_two hhome hplain hloggable runs
  · intro hblocked
    exact warnings_eq_occasions hhome hplain hblocked runs

/-- Two runs with reason to warn, one warning. -/
theorem warnings_per_session_twice :
    warnings "a.jsonl".toList bareHost [.missing "a" "ls" 1, .missing "a" "pwd" 2] = 1 ∧
      occasions "a.jsonl".toList bareHost [.missing "a" "ls" 1, .missing "a" "pwd" 2] = 2 := by
  have hfile : fileName? "a".toList = some "a.jsonl".toList := by decide
  have hloggable : IsLoggable bareHost "a.jsonl".toList := ⟨isWritable_bareHost.isOpen, rfl⟩
  have hcomplete : IsComplete (logBytes bareHost "a.jsonl".toList) := by
    intro text htext c hc
    cases htext
    cases hc
  have honce := (warnings_per_session isWritable_bareHost.plain hfile
    [.missing "a" "ls" 1, .missing "a" "pwd" 2]).1 hloggable hcomplete
  exact ⟨Nat.le_antisymm honce (by decide +kernel), by decide +kernel⟩

/-- A host with a file in the place of its directory of logs. -/
def blockedHost : Host :=
  storeHost [(directory bareHost, .file [0x78] 0)]

/-- Nothing can be noted, and the session is warned all the same. -/
theorem blocked_session_warned_twice :
    fileName? "s".toList = some "s.jsonl".toList ∧
      warnings "s.jsonl".toList blockedHost [.missing "s" "ls" 1, .missing "s" "ls" 2] = 2 := by
  decide +kernel

end Hook

end CompactShell.Command
