import CompactShell.Proofs.Rewriter.Settled

/-!
# Quotes that stay open over several lines

A command is rewritten line by line, and every line is read from a clean state: what an earlier line
quoted is not known in a later one. So a command of several lines becomes what its lines become as
commands of their own (`compact_eq_joinLines`).

So a line is kept exactly if it would be kept alone (`OverTable.line_kept_iff`), and a line inside
a quote has no other protection than that: a line of a message that reads like a command is
rewritten. Only a here-document anywhere in the command keeps all of its lines.
-/

namespace CompactShell.Rewriter

open Shell Text

variable {rewriter : Rewriter}

/-! ## Lines as commands of their own -/

/-- The command as it will run. -/
def compact (rewriter : Rewriter) (command : List Char) : List Char :=
  ((rewriter.rewrite? command).map Rewrite.command).getD command

theorem compact_of_eq_none {command : List Char} (h : rewriter.rewrite? command = none) :
    rewriter.compact command = command := by
  rw [compact, h]
  rfl

theorem OverTable.compact_eq_self_iff (htable : rewriter.OverTable) {command : List Char} :
    rewriter.compact command = command ↔ rewriter.rewrite? command = none := by
  refine ⟨fun hsame => ?_, compact_of_eq_none⟩
  cases hr : rewriter.rewrite? command with
  | none => rfl
  | some rewrite =>
    rw [compact, hr] at hsame
    exact absurd hsame (htable.rewritten_ne hr)

/-- Indentation holds no part of the mark of a here-document. -/
theorem holdsHeredoc_of_white {white command : List Char}
    (hwhite : ∀ c ∈ white, isSpace c = true) (h : holdsHeredoc (white ++ command) = true) :
    holdsHeredoc command = true := by
  induction white with
  | nil => exact h
  | cons c white ih =>
    rw [List.forall_mem_cons] at hwhite
    refine ih hwhite.2 ?_
    unfold holdsHeredoc at h ⊢
    rw [holds_iff, List.cons_append, List.infix_cons_iff] at h
    rcases h with ⟨rest, he⟩ | h
    · obtain rfl : '<' = c := (List.cons.inj he).1
      exact absurd hwhite.1 (by decide)
    · rwa [holds_iff]

theorem rewriteLine?_of_holdsHeredoc {line : List Char} (h : holdsHeredoc line = true) :
    rewriter.rewriteLine? line = none := by
  obtain ⟨white, hline, hwhite⟩ := Rule.exists_white line
  have hd : holdsHeredoc (trimStart line) = true := holdsHeredoc_of_white hwhite (hline ▸ h)
  rw [rewriteLine?_eq, isTaken, hd, Bool.or_true, Bool.true_or, if_pos rfl]

/-- Here-documents are left alone, on one line or several. -/
theorem rewrite?_eq_none_of_holdsHeredoc {command : List Char} (h : holdsHeredoc command = true) :
    rewriter.rewrite? command = none := by
  by_cases hn : '\n' ∈ command
  · exact rewrite?_of_holdsHeredoc hn h
  · rw [rewrite?_of_not_mem hn, rewriteLine?_of_holdsHeredoc h]
    rfl

/-- **A logical line is a command of its own.** It makes no difference that newlines may stand
behind backslashes in it. -/
theorem OverTable.rewrite?_eq_none_iff_of_unbroken (htable : rewriter.OverTable)
    {line : List Char} (hline : Unbroken line) :
    rewriter.rewrite? line = none ↔ rewriter.rewriteLine? line = none := by
  rw [htable.rewrite?_eq_none_iff, hline.linesOf_eq, List.forall_mem_singleton]
  refine ⟨?_, Or.inr⟩
  rintro (⟨-, hd⟩ | hl)
  · exact rewriteLine?_of_holdsHeredoc hd
  · exact hl

theorem OverTable.compact_of_unbroken (htable : rewriter.OverTable) {line : List Char}
    (hline : Unbroken line) : rewriter.compact line = rewriter.lineAfter line := by
  cases hr : rewriter.rewrite? line with
  | none =>
    have hl := (htable.rewrite?_eq_none_iff_of_unbroken hline).1 hr
    rw [compact_of_eq_none hr, htable.lineAfter_of_eq_none hl]
  | some rewrite =>
    rw [compact, hr, Option.map_some, Option.getD_some, htable.command_eq_of_rewrite? hr,
      hline.linesOf_eq, List.map_singleton, joinLines_singleton]

/-- The logical lines of the command as they will run, each in its place. -/
def linesAfter (rewriter : Rewriter) (command : List Char) : List (List Char) :=
  if holdsHeredoc command then linesOf command else (linesOf command).map rewriter.compact

/-- **Line by line.** A command becomes what its lines become as commands of their own. -/
theorem OverTable.compact_eq_joinLines (htable : rewriter.OverTable) (command : List Char) :
    rewriter.compact command = joinLines (rewriter.linesAfter command) := by
  rw [linesAfter]
  split
  · rename_i hd
    rw [compact_of_eq_none (rewrite?_eq_none_of_holdsHeredoc hd), joinLines_linesOf]
  · rename_i hd
    -- as a command of its own, each line becomes what it becomes among the others
    have hlines : (linesOf command).map rewriter.compact =
        (linesOf command).map rewriter.lineAfter :=
      List.map_congr_left fun line hline =>
        htable.compact_of_unbroken (unbroken_of_mem_linesOf hline)
    cases hr : rewriter.rewrite? command with
    | none =>
      have hquiet := (htable.rewrite?_eq_none_iff.1 hr).resolve_left fun h => hd h.2
      have hsame : (linesOf command).map rewriter.lineAfter = linesOf command := by
        rw [List.map_congr_left fun line hline => htable.lineAfter_of_eq_none (hquiet line hline)]
        exact List.map_id' _
      rw [compact_of_eq_none hr, hlines, hsame, joinLines_linesOf]
    | some rewrite =>
      rw [compact, hr, Option.map_some, Option.getD_some, hlines,
        htable.command_eq_of_rewrite? hr]

/-- **A line is kept exactly if it would be kept alone**, or if the command holds a
here-document. -/
theorem OverTable.line_kept_iff (htable : rewriter.OverTable) {command line : List Char} {i : Nat}
    (hline : (linesOf command)[i]? = some line) :
    (rewriter.linesAfter command)[i]? = some line ↔
      holdsHeredoc command = true ∨ rewriter.rewrite? line = none := by
  rw [linesAfter]
  split
  · rename_i hd
    exact iff_of_true hline (.inl hd)
  · rename_i hd
    rw [List.getElem?_map, hline, Option.map_some, Option.some_inj, htable.compact_eq_self_iff,
      or_iff_right hd]

/-! ## Lines inside quotes -/

/-- The text of the command in front of its logical line `i`. -/
def textBefore (command : List Char) (i : Nat) : List Char :=
  ((linesOf command).take i).flatMap fun line => line ++ ['\n']

/-- A quote that is opened in front of logical line `i` is still open where the line starts. -/
def StartsQuoted (command : List Char) (i : Nat) : Prop :=
  (Scan.start.after (textBefore command i)).quoting ≠ .bare

instance (command : List Char) (i : Nat) : Decidable (StartsQuoted command i) :=
  inferInstanceAs (Decidable (_ ≠ _))

/-- **A quoted line is kept exactly if it would be kept alone.** What a command becomes is made of
the lines afterwards, each in the place of the old one. A line that starts inside a quote is among
them as it was if the command holds a here-document, or if no rule changes the line as a command of
its own, and not otherwise. -/
theorem quoted_line_kept_iff (htable : rewriter.OverTable) (command : List Char) :
    rewriter.compact command = joinLines (rewriter.linesAfter command) ∧
      ∀ i line, (linesOf command)[i]? = some line → StartsQuoted command i →
        ((rewriter.linesAfter command)[i]? = some line ↔
          holdsHeredoc command = true ∨ rewriter.rewrite? line = none) := by
  -- the quote that is open plays no part in what becomes of the line
  exact ⟨htable.compact_eq_joinLines command, fun i line hline _ => htable.line_kept_iff hline⟩

/-- The lines of a message that do not read like commands are kept. -/
theorem quoted_line_kept_message :
    StartsQuoted "git commit -m \"fix\n- cat notes\"".toList 1 ∧
      builtIn.compact "git commit -m \"fix\n- cat notes\"".toList =
        joinLines (builtIn.linesAfter "git commit -m \"fix\n- cat notes\"".toList) ∧
      (builtIn.linesAfter "git commit -m \"fix\n- cat notes\"".toList)[1]? =
        some "- cat notes\"".toList := by
  have hquoted : StartsQuoted "git commit -m \"fix\n- cat notes\"".toList 1 := by decide
  obtain ⟨hjoin, hkept⟩ :=
    quoted_line_kept_iff overTable_builtIn "git commit -m \"fix\n- cat notes\"".toList
  exact ⟨hquoted, hjoin, (hkept 1 _ (by decide) hquoted).2 (Or.inr (by decide +kernel))⟩

/-- A line of a message that reads like a command is rewritten, quoted or not. -/
theorem quoted_line_rewritten :
    (linesOf "echo \"\ncat notes\n\"".toList)[1]? = some "cat notes".toList ∧
      StartsQuoted "echo \"\ncat notes\n\"".toList 1 ∧
      builtIn.rewrite? "echo \"\ncat notes\n\"".toList =
        some ⟨"echo \"\nrtk read notes\n\"".toList, ["cat → rtk read"]⟩ ∧
      ¬ "cat notes".toList <:+: "echo \"\nrtk read notes\n\"".toList := by
  decide +kernel

end CompactShell.Rewriter
