import CompactShell.Proofs.Hook.Answers
import CompactShell.Proofs.Log.Growth

/-!
# What a run of the hook leaves behind

`Responds` lists everything that the hook can do about a call once the configuration is known: what
it answers, and the host that it leaves. Nothing else happens (`responds_of_answer`), so a run that
is not over with its event, or with a failure, is one of these responses (`run_cases`).

A response puts at most one entry behind one log. So a run of the hook leaves every file as it was,
but perhaps one: the log of the event's session, which stands in the directory of logs whatever the
session is called, and which has one line more (`run_adds_at_most_one_line`).
-/

namespace CompactShell.Command

open Host Json Log Text

namespace Hook

variable {host after : Host} {time : String} {text : List Char} {call : ToolCall}
  {config : Option Config} {result : Answer}

/-! ## Responses -/

/-- Everything that the hook does about a call, given the configuration in force. -/
inductive Responds (host : Host) (time : String) (call : ToolCall) (config : Option Config) :
    Answer → Host → Prop where
  /-- Rewriting is switched off. -/
  | off : Config.isRewriting host config = false → Responds host time call config .silence host
  /-- The command has a compact form. -/
  | update {rewrite : Rewrite} : Config.isRewriting host config = true → host.hasTool = true →
      (Config.rewriter host config).rewrite? call.command = some rewrite →
      Responds host time call config
        (.update (call.input.put "command" (textValue rewrite.command)))
        (record host time call.log? .rewrite call (some rewrite))
  /-- The command has none. -/
  | pass : Config.isRewriting host config = true → host.hasTool = true →
      (Config.rewriter host config).rewrite? call.command = none →
      Responds host time call config .silence (record host time call.log? .pass call none)
  /-- The compact tool is missing, and the session has no log. -/
  | unlogged : Config.isRewriting host config = true → host.hasTool = false →
      call.log? = none → Responds host time call config .silence host
  /-- The compact tool is missing, and the log says that this is known. -/
  | known {file : Name} : Config.isRewriting host config = true → host.hasTool = false →
      call.log? = some file → isWarned host (path host file) = .ok true →
      Responds host time call config .silence host
  /-- The compact tool is missing, and the log does not say so. -/
  | warn {file : Name} : Config.isRewriting host config = true → host.hasTool = false →
      call.log? = some file → isWarned host (path host file) = .ok false →
      Responds host time call config (.warning Session.missingToolWarning)
        (Log.append host file
          (.ofCommand time .unavailable call.command none call.directory))

theorem responds_of_warn (hrewriting : Config.isRewriting host config = true)
    (htool : host.hasTool = false)
    (h : Hook.warn host time call.log? call Session.missingToolWarning = .ok (result, after)) :
    Responds host time call config result after := by
  unfold Hook.warn at h
  cases hlog : call.log? with
  | none =>
    rw [hlog] at h
    cases h
    exact .unlogged hrewriting htool hlog
  | some file =>
    rw [hlog] at h
    dsimp only [bind, Except.bind] at h
    split at h
    · cases h
    · rename_i isWarned hwarned
      cases isWarned with
      | true =>
        rw [if_pos rfl] at h
        cases h
        exact .known hrewriting htool hlog hwarned
      | false =>
        rw [if_neg Bool.false_ne_true] at h
        cases h
        exact .warn hrewriting htool hlog hwarned

/-- **The hook does nothing but respond.** -/
theorem responds_of_answer (hcommand : call.command ≠ [])
    (h : answer host time call = .ok (result, after)) :
    ∃ config, Config.inForce? host call.directory = .ok config ∧
      Responds host time call config result after := by
  cases hconfig : Config.inForce? host call.directory with
  | error failure =>
    unfold answer at h
    rw [hconfig] at h
    cases h
  | ok config =>
    refine ⟨config, rfl, ?_⟩
    rw [answer_eq hcommand hconfig] at h
    cases hrewriting : Config.isRewriting host config with
    | false =>
      rw [hrewriting, if_neg Bool.false_ne_true] at h
      cases h
      exact .off hrewriting
    | true =>
      rw [hrewriting, if_pos rfl, proceed] at h
      cases htool : host.hasTool with
      | false =>
        rw [htool, if_neg Bool.false_ne_true] at h
        exact responds_of_warn hrewriting htool h
      | true =>
        rw [htool, if_pos rfl] at h
        cases hrewrite : (Config.rewriter host config).rewrite? call.command with
        | none =>
          rw [hrewrite] at h
          cases h
          exact .pass hrewriting htool hrewrite
        | some rewrite =>
          rw [hrewrite] at h
          cases h
          exact .update hrewriting htool hrewrite

/-- **Everything that a run can come to.** Either the event is no call or something fails, and then
the run says nothing and leaves the host as it was, or it is a response to a call. -/
theorem run_cases (host : Host) (time : String) (text : List Char) :
    ((run host time text).1.output = "" ∧ (run host time text).2 = host) ∨
      ∃ call config result after, ToolCall.ofText? host.rooms.event text = .ok (some call) ∧
        Config.inForce? host call.directory = .ok config ∧
        Responds host time call config result after ∧
        run host time text = (⟨result.output, "", .ok 0⟩, after) := by
  unfold run
  cases hreads : ToolCall.ofText? host.rooms.event text with
  | error failure => exact .inl ⟨rfl, rfl⟩
  | ok call? =>
    cases call? with
    | none => exact .inl ⟨rfl, rfl⟩
    | some call =>
      dsimp only [bind, Except.bind]
      cases hanswer : answer host time call with
      | error failure => exact .inl ⟨rfl, rfl⟩
      | ok response =>
        obtain ⟨result, after⟩ := response
        obtain ⟨config, hconfig, hresponds⟩ :=
          responds_of_answer (ToolCall.command_ne_nil hreads) hanswer
        exact .inr ⟨call, config, result, after, rfl, hconfig, hresponds, rfl⟩

/-! ## What is written -/

/-- A response leaves the host as it was, or with an entry more in the log of the call. -/
theorem Responds.host_cases (h : Responds host time call config result after) :
    after = host ∨ ∃ file entry, call.log? = some file ∧ after = Log.append host file entry := by
  have hrecord : ∀ kind rewrite, record host time call.log? kind call rewrite = host ∨
      ∃ file entry, call.log? = some file ∧
        record host time call.log? kind call rewrite = Log.append host file entry := by
    intro kind rewrite
    cases hlog : call.log? with
    | none => exact .inl rfl
    | some file => exact .inr ⟨file, _, rfl, rfl⟩
  cases h with
  | off => exact .inl rfl
  | update => exact hrecord ..
  | pass => exact hrecord ..
  | unlogged => exact .inl rfl
  | known => exact .inl rfl
  | warn _ _ hlog => exact .inr ⟨_, _, hlog, rfl⟩

/-- One JSON object on a line of its own: no character of it ends a line in any sense of the word. -/
def IsObjectLine (line : List Char) : Prop :=
  (∀ c ∈ line, isLineBreak c = false) ∧ ∃ members, Json.read line = .ok (.obj members)

theorem isObjectLine_entry (entry : Entry) : IsObjectLine (write (.obj entry.members)) := by
  refine ⟨fun c hc => ?_, entry.members, read_write entry.isExact⟩
  exact isLineBreak_of_isVisible (entry.isExact.isProper.isVisible c hc)

/-- **Logs only grow, and nothing else is written.** Whatever the host is like and whatever event
the hook is given, also one that it fails on, a run leaves all files as they were, or it makes one
of them longer by a line with a JSON object. That file is the log of the event's session. It stands
in the directory of logs and is called like a log, whatever the session is called. -/
theorem run_adds_at_most_one_line (host : Host) (time : String) (text : List Char) :
    (run host time text).2.files = host.files ∨
      ∃ call file line, ToolCall.ofText? host.rooms.event text = .ok (some call) ∧
        call.log? = some file ∧ IsLogName file ∧ IsObjectLine line ∧
        IsGrown host.files (run host time text).2.files (Log.directory host) file
          (line ++ ['\n']) := by
  rcases run_cases host time text with ⟨-, hhost⟩ | ⟨call, config, result, after, hreads, -,
    hresponds, hrun⟩
  · left
    rw [hhost]
  · rw [hrun]
    rcases hresponds.host_cases with hhost | ⟨file, entry, hlog, happend⟩
    · left
      rw [hhost]
    · by_cases hloggable : IsLoggable host file
      · right
        obtain ⟨files, hfiles, hgrown⟩ := append_of_isLoggable hloggable entry
        obtain ⟨session, hfile⟩ := exists_session hlog
        rw [happend, hfiles]
        exact ⟨call, file, _, hreads, hlog, isLogName_of_fileName? hfile, isObjectLine_entry entry,
          hgrown⟩
      · left
        rw [happend, append_of_not_isLoggable hloggable]

end Hook

end CompactShell.Command
