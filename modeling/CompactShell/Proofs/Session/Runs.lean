import CompactShell.Proofs.Session.Tally
import CompactShell.Session.Basic
import Mathlib.Data.List.DropRight

/-!
# Runs of a session

A session goes through steps of any kind in any order. What its tally counts, at every moment, are
the commands that it has observed since the last reset (`counts_run`): those handled while it was
switched on and had the tool. It has warned of the missing tool exactly if it says so
(`warnings_run`), so it does at most once.

`session_consistent` puts together what follows for the numbers of a session and for its report.
-/

namespace CompactShell.Session

open Tally

/-! ## Steps -/

/-- What can be done to a session. -/
inductive Step where
  | handle (command : List Char)
  | warning
  | report
  | reset
  | toggle
  | setAvailable (value : Bool)
  | setEnabled (value : Bool)
  deriving DecidableEq, Repr

/-- The session after a step. -/
def perform (session : Session) : Step → Session
  | .handle command => (session.handle command).2
  | .warning => session.warning?.2
  | .report => session
  | .reset => session.reset
  | .toggle => session.toggle
  | .setAvailable value => { session with available := value }
  | .setEnabled value => { session with enabled := value }

def run (session : Session) (steps : List Step) : Session :=
  steps.foldl perform session

/-- The steps, each with the session that it meets. -/
def trace (session : Session) : List Step → List (Session × Step)
  | [] => []
  | step :: steps => (session, step) :: trace (session.perform step) steps

/-- The step hands a command to a session that is switched on and has the tool. -/
def isObserved : Session × Step → Bool
  | (session, .handle command) => session.available && session.enabled && !command.isEmpty
  | _ => false

/-- The step is answered with the warning of the missing tool. -/
def isWarned : Session × Step → Bool
  | (session, .warning) => session.warning?.1.isSome
  | _ => false

/-- What is recorded for a step: for a command that is observed, the rule that rewrites it if one
does. -/
def record? : Session × Step → Option (Option String)
  | (session, .handle command) =>
    if isObserved (session, .handle command) then
      some ((session.rewriter.rewrite? command).map Rewrite.rule)
    else none
  | _ => none

/-- The steps behind the last reset. -/
def sinceReset (past : List (Session × Step)) : List (Session × Step) :=
  past.rtakeWhile fun met => met.2 ≠ .reset

/-- What has been recorded since the last reset. -/
def recorded (past : List (Session × Step)) : List (Option String) :=
  (sinceReset past).filterMap record?

theorem run_concat (session : Session) (steps : List Step) (step : Step) :
    session.run (steps ++ [step]) = (session.run steps).perform step := by
  unfold run
  rw [List.foldl_append]
  rfl

theorem trace_concat (session : Session) (steps : List Step) (step : Step) :
    session.trace (steps ++ [step]) = session.trace steps ++ [(session.run steps, step)] := by
  induction steps generalizing session with
  | nil => rfl
  | cons first steps ih =>
    rw [List.cons_append, trace, trace, ih]
    rfl

theorem recorded_concat_reset (past : List (Session × Step)) (session : Session) :
    recorded (past ++ [(session, .reset)]) = [] := by
  unfold recorded sinceReset
  rw [List.rtakeWhile_concat_neg _ _ _ (by simp)]
  rfl

theorem recorded_concat (past : List (Session × Step)) (session : Session) {step : Step}
    (hstep : step ≠ .reset) :
    recorded (past ++ [(session, step)]) = recorded past ++ (record? (session, step)).toList := by
  unfold recorded sinceReset
  rw [List.rtakeWhile_concat_pos _ _ _ (by simpa using hstep), List.filterMap_append]
  cases hrecord : record? (session, step) with
  | none => rw [List.filterMap_cons_none hrecord]; rfl
  | some record => rw [List.filterMap_cons_some hrecord]; rfl

theorem length_recorded (past : List (Session × Step)) :
    (recorded past).length = (sinceReset past).countP isObserved := by
  unfold recorded
  rw [List.length_filterMap_eq_countP]
  congr 1
  funext met
  obtain ⟨session, step⟩ := met
  cases step with
  | handle command =>
    rw [record?]
    cases isObserved (session, .handle command) with
    | true => rfl
    | false => rfl
  | warning | report | reset | toggle | setAvailable value | setEnabled value => rfl

/-! ## What each step keeps -/

/-- **A step records what it observes**, and nothing else but a reset touches the tally. -/
theorem tally_perform (session : Session) {step : Step} (hstep : step ≠ .reset) :
    (session.perform step).tally =
      (record? (session, step)).toList.foldl Tally.record session.tally := by
  cases step with
  | handle command =>
    have hobserved : isObserved (session, .handle command) =
        !(!session.available || !session.enabled || command.isEmpty) := by
      rw [isObserved, Bool.not_or, Bool.not_or, Bool.not_not, Bool.not_not]
    rw [perform, handle, record?, hobserved]
    cases !session.available || !session.enabled || command.isEmpty with
    | true => rfl
    | false => rfl
  | warning =>
    rw [perform, warning?]
    cases session.available || session.warned with
    | true => rfl
    | false => rfl
  | reset => exact absurd rfl hstep
  | report | toggle | setAvailable value | setEnabled value => rfl

/-- **A warning is remembered**, and is given only if there was none. -/
theorem warned_perform (session : Session) (step : Step) :
    (session.perform step).warned.toNat =
      session.warned.toNat + (isWarned (session, step)).toNat := by
  cases step with
  | handle command =>
    rw [perform, handle]
    cases !session.available || !session.enabled || command.isEmpty with
    | true => rfl
    | false => rfl
  | warning =>
    rw [perform, isWarned, warning?]
    cases hwarned : session.warned with
    | true =>
      rw [Bool.or_true]
      exact congrArg Bool.toNat hwarned
    | false =>
      cases session.available with
      | true => exact congrArg Bool.toNat hwarned
      | false => rfl
  | report | reset | toggle | setAvailable value | setEnabled value => rfl

/-! ## Runs -/

/-- **At every moment the tally counts what was observed since the last reset.** -/
theorem counts_run {session : Session} (h : session.tally = .empty) (steps : List Step) :
    Counts (recorded (session.trace steps)) (session.run steps).tally := by
  -- from the right, since a reset forgets all in front of it
  induction steps using List.reverseRecOn with
  | nil =>
    show Counts [] session.tally
    rw [h]
    exact counts_empty
  | append_singleton steps step ih =>
    rw [run_concat, trace_concat]
    by_cases hstep : step = .reset
    · rw [hstep, recorded_concat_reset]
      exact counts_empty
    · rw [recorded_concat _ _ hstep, tally_perform _ hstep]
      cases record? (session.run steps, step) with
      | none =>
        rw [Option.toList_none, List.append_nil]
        exact ih
      | some record => exact ih.record record

theorem warnings_run (session : Session) (steps : List Step) :
    (session.run steps).warned.toNat =
      session.warned.toNat + (session.trace steps).countP isWarned := by
  induction steps generalizing session with
  | nil => rfl
  | cons step steps ih =>
    have hrest := ih (session.perform step)
    rw [warned_perform] at hrest
    rw [trace, List.countP_cons]
    show ((session.perform step).run steps).warned.toNat = _
    rw [hrest]
    cases isWarned (session, step) with
    | true =>
      rw [if_pos rfl, Bool.toNat_true]
      omega
    | false =>
      rw [if_neg Bool.false_ne_true, Bool.toNat_false]
      omega

/-! ## The report -/

/-- What a report says. -/
structure Report where
  enabled : Bool
  seen : Nat
  rewritten : Nat
  passed : Nat
  /-- The rules that it lists, each with its count. -/
  listed : List (String × Nat)
  deriving DecidableEq, Repr

/-- A report as it is printed. -/
def Report.text (report : Report) : String :=
  let status := if report.enabled then "enabled" else "DISABLED"
  "\n".intercalate
    ([s!"RTK Rewrite - {status}",
      s!"Commands seen:  {report.seen}",
      s!"Rewritten:      {report.rewritten}",
      s!"Passed through: {report.passed}"] ++
    if report.listed.isEmpty then []
    else ["", "By rule:"] ++ report.listed.map fun (rule, count) => s!"  {rule}: {count}")

/-- What the report on a session says. -/
def summary (session : Session) : Report :=
  ⟨session.enabled, session.tally.total, session.tally.rewritten, session.tally.skipped,
    session.tally.ranking⟩

theorem text_summary (session : Session) : session.summary.text = session.report := by
  have hempty : session.summary.listed.isEmpty = session.tally.byRule.isEmpty := by
    show session.tally.ranking.isEmpty = _
    rw [Bool.eq_iff_iff, List.isEmpty_iff_length_eq_zero, List.isEmpty_iff_length_eq_zero,
      session.tally.perm_ranking.length_eq]
  unfold Report.text report Tally.report reportLines
  rw [hempty]
  cases session.tally.byRule.isEmpty with
  | true => rfl
  | false => rfl

/-- The rules are listed by their counts, those with the same count in the order in which they were
first recorded. -/
structure Lists (report : Report) (rules : List (Option String)) : Prop where
  /-- Each rule that was recorded is listed once, with how often it was. -/
  perm : report.listed.Perm (firstCounts rules.reduceOption)
  nodup : (report.listed.map Prod.fst).Nodup
  descending : report.listed.Pairwise fun a b => b.2 ≤ a.2
  stable : ∀ count, report.listed.filter (·.2 = count) =
    (firstCounts rules.reduceOption).filter (·.2 = count)

theorem lists_summary {session : Session} {records : List (Option String)}
    (h : Counts records session.tally) : Lists session.summary records := by
  have hperm : session.tally.ranking.Perm (firstCounts records.reduceOption) := by
    rw [← h.byRule]
    exact session.tally.perm_ranking
  refine ⟨hperm, ?_, session.tally.pairwise_ranking, ?_⟩
  · show (session.tally.ranking.map Prod.fst).Nodup
    rw [(hperm.map Prod.fst).nodup_iff, map_fst_firstCounts]
    exact nodup_eraseDups _
  · intro count
    rw [← h.byRule]
    exact session.tally.filter_ranking count

/-- **The numbers of a session agree, whatever was done to it.** The tally counts the commands that
were observed since the last reset, each as passed through or for its rule; the warning is given at
most once; and the report lists the rules of the tally, and its numbers add up. -/
theorem session_consistent (rewriter : Rewriter) (available enabled : Bool) (steps : List Step) :
    let past := (new rewriter available enabled).trace steps
    let session := (new rewriter available enabled).run steps
    let tally := session.tally
    tally.total = tally.skipped + (tally.byRule.map Prod.snd).sum ∧
      (∀ entry ∈ tally.byRule, 1 ≤ entry.2) ∧
      tally.total = (sinceReset past).countP isObserved ∧
      past.countP isWarned ≤ 1 ∧
      tally.byRule = firstCounts (recorded past).reduceOption ∧
      ∃ report : Report, session.report = report.text ∧ Lists report (recorded past) ∧
        (report.listed.map Prod.snd).sum = report.rewritten ∧
        report.rewritten + report.passed = report.seen ∧ report.seen = tally.total ∧
        report.passed = tally.skipped := by
  intro past session tally
  have hcounts : Counts (recorded past) tally := counts_run rfl steps
  have htotal := hcounts.total_eq
  have hwarned := warnings_run (new rewriter available enabled) steps
  have hbound := session.warned.toNat_le
  refine ⟨htotal, ?_, ?_, ?_, hcounts.byRule, session.summary, (text_summary session).symm,
    lists_summary hcounts, ?_, ?_, rfl, rfl⟩
  · intro entry hentry
    rw [hcounts.byRule] at hentry
    exact one_le_of_mem_firstCounts hentry
  · rw [hcounts.total, length_recorded]
  · have hcount : session.warned.toNat = 0 + past.countP isWarned := hwarned
    omega
  · show (tally.ranking.map Prod.snd).sum = tally.total - tally.skipped
    rw [(tally.perm_ranking.map Prod.snd).sum_nat]
    omega
  · show tally.total - tally.skipped + tally.skipped = tally.total
    omega

end CompactShell.Session
