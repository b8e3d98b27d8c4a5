import CompactShell.Proofs.Rewriter.Quoted
import CompactShell.Proofs.Shell.Boundaries

/-!
# Commands one below the other

Two texts with a newline between them are rewritten as each is by itself, and the labels of the
second are added to those of the first (`joined_commands`). For that it does not matter how many
lines either of them has: a single line takes a shorter way through the rewriter, but the labels
that are reported are in both cases those of the logical lines (`OverTable.labels_eq`).

Two things can spoil it. A first text that ends in a backslash takes in the start of the second,
even where the shell would take the backslash for an escaped one, and a here-document in either
keeps both from being rewritten.
-/

namespace CompactShell.Rewriter

open Shell Text

variable {rewriter : Rewriter}

/-! ## Labels -/

/-- The labels that are reported for a command, none if it is left alone. -/
def labels (rewriter : Rewriter) (command : List Char) : List String :=
  ((rewriter.rewrite? command).map Rewrite.labels).getD []

/-- Leaving out the repeated ones and leaving out some others can be done in either order. -/
theorem eraseDups_filter (p : String → Bool) (labels : List String) :
    (labels.filter p).eraseDups = labels.eraseDups.filter p := by
  induction hn : labels.length using Nat.strongRecOn generalizing labels with
  | ind n ih =>
    cases labels with
    | nil => rfl
    | cons label labels =>
      have hlen : (labels.filter fun other => !other == label).length < n := by
        have hle := List.length_filter_le (fun other => !other == label) labels
        rw [← hn, List.length_cons]
        omega
      have hrest := ih _ hlen (labels.filter fun other => !other == label) rfl
      rw [List.eraseDups_cons, List.filter_cons, List.filter_cons, ← hrest]
      by_cases hp : p label = true
      · rw [if_pos hp, if_pos hp, List.eraseDups_cons, List.filter_filter, List.filter_filter]
        simp only [Bool.and_comm]
      · -- what is left out for its own sake is not equal to the label either
        have hsame : (labels.filter fun other => !other == label).filter p = labels.filter p := by
          rw [List.filter_filter]
          refine List.filter_congr fun other _ => ?_
          by_cases he : other = label
          · rw [he]; simp [hp]
          · simp [he]
        rw [if_neg hp, if_neg hp, hsame]

/-- **The labels are those of the logical lines**, for a command of one line as for others. -/
theorem OverTable.labels_eq (htable : rewriter.OverTable) {command : List Char}
    (hd : holdsHeredoc command = false) :
    rewriter.labels command = rewriter.labelsOf (linesOf command) := by
  by_cases hn : '\n' ∈ command
  · rw [labels, rewrite?_of_mem hn hd]
    split
    · rename_i hempty
      rw [List.isEmpty_iff.1 hempty]
      rfl
    · rfl
  · rw [labels, rewrite?_of_not_mem hn, (unbroken_of_not_mem hn).linesOf_eq, labelsOf,
      List.map_singleton, htable.rewriteOne_eq]
    cases rewriter.rewriteLine? command with
    | none => rfl
    | some new => rfl

/-- The labels of lines one below the other, each at its first place. -/
theorem labelsOf_append (front back : List (List Char)) :
    rewriter.labelsOf (front ++ back) =
      rewriter.labelsOf front ++
        (rewriter.labelsOf back).filter fun label => !(rewriter.labelsOf front).contains label := by
  unfold labelsOf
  rw [List.map_append, List.filterMap_append, List.eraseDups_append, List.removeAll,
    eraseDups_filter]
  congr 1
  refine List.filter_congr fun label _ => ?_
  rw [List.elem_eq_contains, Bool.eq_iff_iff]
  simp [List.mem_eraseDups]

/-! ## Joined commands -/

/-- The mark of a here-document does not go over a newline. -/
theorem holdsHeredoc_append_newline {front back : List Char}
    (hf : holdsHeredoc front = false) (hb : holdsHeredoc back = false) :
    holdsHeredoc (front ++ '\n' :: back) = false := by
  unfold holdsHeredoc at hf hb ⊢
  rw [Bool.eq_false_iff, ne_eq, holds_iff] at hf hb ⊢
  intro h
  rcases List.infix_append_iff.1 h with h | h | ⟨left, right, hmark, hl, hr⟩
  · exact hf h
  · rcases List.infix_cons_iff.1 h with ⟨rest, h⟩ | h
    · exact absurd (List.cons.inj h).1 (by decide)
    · exact hb h
  · -- across the seam, the part of the mark behind it would start with the newline
    cases right with
    | nil =>
      rw [List.append_nil] at hmark
      exact hf (hmark ▸ hl.isInfix)
    | cons c right =>
      obtain ⟨rest, hrest⟩ := hr
      obtain rfl : c = '\n' := (List.cons.inj hrest).1
      have hnewline : '\n' ∈ "<<".toList := by rw [hmark]; simp
      exact absurd hnewline (by decide)

/-- **Commands are rewritten one by one.** If neither text holds a here-document and the first does
not end in a backslash, the two with a newline between them become what each becomes, with the
labels of both, and are left alone exactly if both are. -/
theorem joined_commands (htable : rewriter.OverTable) {front back : List Char}
    (hf : holdsHeredoc front = false) (hb : holdsHeredoc back = false)
    (hend : isContinued front = false) :
    rewriter.compact (front ++ '\n' :: back) =
        rewriter.compact front ++ '\n' :: rewriter.compact back ∧
      rewriter.labels (front ++ '\n' :: back) =
        rewriter.labels front ++
          (rewriter.labels back).filter (fun label => !(rewriter.labels front).contains label) ∧
      (rewriter.rewrite? (front ++ '\n' :: back) = none ↔
        rewriter.rewrite? front = none ∧ rewriter.rewrite? back = none) := by
  have hjoin := holdsHeredoc_append_newline hf hb
  have hlines := linesOf_append_newline back hend
  refine ⟨?_, ?_, ?_⟩
  · have hne : ∀ command, (linesOf command).map rewriter.compact ≠ [] := by
      intro command h
      exact linesOf_ne_nil command (List.map_eq_nil_iff.1 h)
    rw [htable.compact_eq_joinLines, htable.compact_eq_joinLines front,
      htable.compact_eq_joinLines back]
    unfold linesAfter
    rw [hjoin, hf, hb, if_neg Bool.false_ne_true, if_neg Bool.false_ne_true,
      if_neg Bool.false_ne_true, hlines, List.map_append, joinLines_append (hne front) (hne back)]
  · rw [htable.labels_eq hjoin, htable.labels_eq hf, htable.labels_eq hb, hlines, labelsOf_append]
  · rw [htable.rewrite?_eq_none_iff, htable.rewrite?_eq_none_iff, htable.rewrite?_eq_none_iff,
      hlines, List.forall_mem_append, hjoin, hf, hb]
    simp

/-- A continued command, a comment and a label that both parts have. -/
theorem joined_commands_script :
    builtIn.compact "# look\ngit \\\n  status\n\nls\ncat a\\\\\ngit log \\".toList =
        "# look\nrtk git \\\n  status".toList ++ '\n' ::
          "\nrtk ls\nrtk read a\\\\\ngit log \\".toList ∧
      builtIn.labels "# look\ngit \\\n  status\n\nls\ncat a\\\\\ngit log \\".toList =
        ["git", "ls", "cat → rtk read"] := by
  have hf : holdsHeredoc "# look\ngit \\\n  status".toList = false := by decide +kernel
  have hb : holdsHeredoc "\nls\ncat a\\\\\ngit log \\".toList = false := by decide +kernel
  obtain ⟨htext, hlabels, -⟩ := joined_commands overTable_builtIn hf hb (by decide)
  have hfront : builtIn.compact "# look\ngit \\\n  status".toList =
      "# look\nrtk git \\\n  status".toList := by decide +kernel
  have hback : builtIn.compact "\nls\ncat a\\\\\ngit log \\".toList =
      "\nrtk ls\nrtk read a\\\\\ngit log \\".toList := by decide +kernel
  rw [hfront, hback] at htext
  exact ⟨htext, hlabels.trans (by decide +kernel)⟩

/-- An escaped backslash in front of a newline continues the line too. The newline is outside quotes
and not escaped, so the shell ends a command there, and an option of that command is moved behind
the next one. -/
theorem escaped_backslash_joins :
    (Scan.start.after "grep -n foo\\\\".toList).isLive '\n' = true ∧
      ¬ IsBoundary "grep -n foo\\\\".toList "cat".toList ∧
      linesOf "grep -n foo\\\\\ncat".toList = ["grep -n foo\\\\\ncat".toList] ∧
      builtIn.rewrite? "grep -n foo\\\\\ncat".toList =
        some ⟨"rtk grep foo\\\\\ncat -n".toList, ["grep/rg"]⟩ := by
  have hlive : (Scan.start.after "grep -n foo\\\\".toList).isLive '\n' = true := by decide
  refine ⟨hlive, fun h => ?_, by decide +kernel, by decide +kernel⟩
  rw [isBoundary_iff] at h
  exact absurd h (by decide)

end CompactShell.Rewriter
