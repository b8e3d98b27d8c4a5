import CompactShell.Proofs.Rewriter.Lines

/-!
# Rewritten commands are settled

A rewritten command is not rewritten again. For one line that is so because the new line runs the
tool. A command of several lines is cut into physical lines a second time, and its lines need not be
the ones that were put together: a line that ends in a backslash now takes in the next.

Such a line is always a new one. The lines of the first reading end in no backslash, except for the
last of them, so a line in front of another that does so now was changed (`RunsTool`), and it still
runs the tool when it takes in what follows. `Settled` is this invariant of the new lines, and
`Settled.rewrite?_eq_none` says that it is enough.
-/

namespace CompactShell.Rewriter

open Shell Text

variable {rewriter : Rewriter}

/-- The lines are left alone, one by one and also where one of them takes in the next. -/
structure Settled (rewriter : Rewriter) (lines : List (List Char)) : Prop where
  ne : lines ≠ []
  /-- They are read as lines again. -/
  unbroken : ∀ line ∈ lines, Unbroken line
  /-- No rule changes any of them. -/
  quiet : ∀ line ∈ lines, rewriter.rewriteLine? line = none
  /-- A line that takes in the next runs the tool. -/
  continued : ∀ line ∈ lines.dropLast, isContinued line = true → RunsTool line

/-- Whatever lines are put together out of settled ones, no rule changes any of them. -/
theorem Settled.logicalLines {lines : List (List Char)} (h : rewriter.Settled lines) :
    ∀ line ∈ logicalLines lines, rewriter.rewriteLine? line = none := by
  intro line hline
  rcases mem_logicalLines_cases hline with hmem | ⟨front, hfront, hc, behind, rfl⟩
  · exact h.quiet line hmem
  · exact ((h.continued front hfront hc).append ('\n' :: behind)).rewriteLine?_eq_none rewriter

/-- **A command made of settled lines is left alone.** -/
theorem Settled.rewrite?_eq_none (htable : rewriter.OverTable) {lines : List (List Char)}
    (h : rewriter.Settled lines) : rewriter.rewrite? (joinLines lines) = none := by
  rw [htable.rewrite?_eq_none_iff, linesOf_joinLines h.ne h.unbroken]
  exact Or.inr h.logicalLines

/-- What becomes of a line is unbroken, and no rule changes it. -/
theorem OverTable.lineAfter_spec (htable : rewriter.OverTable) {line : List Char}
    (hline : Unbroken line) : Unbroken (rewriter.lineAfter line) ∧
      rewriter.rewriteLine? (rewriter.lineAfter line) = none ∧
      (rewriter.lineAfter line = line ∨ RunsTool (rewriter.lineAfter line)) := by
  cases hl : rewriter.rewriteLine? line with
  | none =>
    rw [htable.lineAfter_of_eq_none hl]
    exact ⟨hline, hl, Or.inl rfl⟩
  | some new =>
    rw [htable.lineAfter_of_eq_some hl]
    exact ⟨htable.unbroken hl hline, htable.rewriteLine?_eq_none hl, Or.inr (htable.runsTool hl)⟩

/-- **The lines of a command are settled afterwards.** -/
theorem OverTable.settled (htable : rewriter.OverTable) (command : List Char) :
    rewriter.Settled ((linesOf command).map rewriter.lineAfter) := by
  have hspec := fun line (hline : line ∈ linesOf command) =>
    htable.lineAfter_spec (unbroken_of_mem_linesOf hline)
  refine ⟨?_, ?_, ?_, ?_⟩
  · rw [ne_eq, List.map_eq_nil_iff]
    exact linesOf_ne_nil command
  · intro new hnew
    obtain ⟨line, hline, rfl⟩ := List.mem_map.1 hnew
    exact (hspec line hline).1
  · intro new hnew
    obtain ⟨line, hline, rfl⟩ := List.mem_map.1 hnew
    exact (hspec line hline).2.1
  · intro new hnew hc
    rw [← List.map_dropLast] at hnew
    obtain ⟨line, hline, rfl⟩ := List.mem_map.1 hnew
    rcases (hspec line (List.dropLast_subset _ hline)).2.2 with hsame | htool
    · -- an old line that is continued had taken in the next one already
      rw [hsame, isContinued_of_mem_dropLast line hline] at hc
      cases hc
    · exact htool

theorem OverTable.rewrite?_of_rewritten (htable : rewriter.OverTable) {command : List Char}
    {rewrite : Rewrite} (h : rewriter.rewrite? command = some rewrite) :
    rewriter.rewrite? rewrite.command = none := by
  rw [htable.command_eq_of_rewrite? h]
  exact (htable.settled command).rewrite?_eq_none htable

theorem OverTable.rewritten_ne (htable : rewriter.OverTable) {command : List Char}
    {rewrite : Rewrite} (h : rewriter.rewrite? command = some rewrite) :
    rewrite.command ≠ command := by
  intro hsame
  have hnone := htable.rewrite?_of_rewritten h
  rw [hsame, h] at hnone
  cases hnone

/-- **Rewriting again does nothing.** A rewriter for rules of the table, any of them in any order,
never rewrites a command that it has rewritten, and no command is rewritten to itself. -/
theorem rewritten_settled {rules : List Rule} (hrules : ∀ rule ∈ rules, rule ∈ Rule.table)
    (disabled : List String) (throughOperators : Bool) {command : List Char} {rewrite : Rewrite}
    (h : (ofRules rules disabled throughOperators).rewrite? command = some rewrite) :
    rewrite.command ≠ command ∧
      (ofRules rules disabled throughOperators).rewrite? rewrite.command = none := by
  have htable := overTable_ofRules hrules disabled throughOperators
  exact ⟨htable.rewritten_ne h, htable.rewrite?_of_rewritten h⟩

/-- An escaped backslash loses the blank behind it, and so takes in the next line when the command
is read again. Both lines run the tool by then. -/
theorem rewritten_settled_regrouped :
    (ofRules Rule.table ["ls"] false).rewrite? "grep a\\\\ \ncat b".toList =
        some ⟨"rtk grep a\\\\\nrtk read b".toList, ["grep/rg", "cat → rtk read"]⟩ ∧
      "rtk grep a\\\\\nrtk read b".toList ≠ "grep a\\\\ \ncat b".toList ∧
      (ofRules Rule.table ["ls"] false).rewrite? "rtk grep a\\\\\nrtk read b".toList = none := by
  have h : (ofRules Rule.table ["ls"] false).rewrite? "grep a\\\\ \ncat b".toList =
      some ⟨"rtk grep a\\\\\nrtk read b".toList, ["grep/rg", "cat → rtk read"]⟩ := by decide +kernel
  exact ⟨h, rewritten_settled (fun _ hrule => hrule) ["ls"] false h⟩

end CompactShell.Rewriter
