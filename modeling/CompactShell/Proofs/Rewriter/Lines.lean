import CompactShell.Proofs.Rewriter.Parts
import CompactShell.Proofs.Shell.Lines

/-!
# What becomes of a line

Every line of a command is looked at by itself, and the command is put together again from what
becomes of each (`command_eq_of_rewrite?`). `lineAfter` is that part of the rewriter.

The table's rules change nothing but bodies that start with a letter. So a line without a body, or
with a comment for one, is left alone in a command of one line as well, where it is not set apart
(`OverTable.rewriteLine?_eq_none_of_isIdle`). That makes one line a command of one line, and no
case of its own.
-/

namespace CompactShell.Rewriter

open Rule Shell Text

variable {rewriter : Rewriter}

/-- The rewriter goes by rules of the table only: some of them, in any order. -/
def OverTable (rewriter : Rewriter) : Prop :=
  ∀ rule ∈ rewriter.rules, rule ∈ Rule.table

theorem overTable_ofRules {rules : List Rule} (h : ∀ rule ∈ rules, rule ∈ Rule.table)
    (disabled : List String) (throughOperators : Bool) :
    (ofRules rules disabled throughOperators).OverTable :=
  fun rule hrule => h rule (List.mem_filter.1 hrule).1

theorem overTable_builtIn : builtIn.OverTable :=
  overTable_ofRules (fun _ h => h) [] false

/-! ## Bodies -/

theorem exists_rule_of_rewriteBody? {body new : List Char} {label : String}
    (h : rewriter.rewriteBody? body = some (new, label)) :
    ∃ rule ∈ rewriter.rules, rule.rewrite? body = some new ∧ rule.label = label := by
  obtain ⟨rule, hrule, hmap⟩ := List.exists_of_findSome?_eq_some h
  obtain ⟨new', hnew, he⟩ := Option.map_eq_some_iff.1 hmap
  obtain ⟨rfl, rfl⟩ := Prod.mk.inj he
  exact ⟨rule, hrule, hnew, rfl⟩

/-- **Every new body comes by a change that the table allows.** -/
theorem OverTable.change (h : rewriter.OverTable) {body new : List Char} {label : String}
    (hb : rewriter.rewriteBody? body = some (new, label)) : Change body new := by
  obtain ⟨rule, hrule, hnew, -⟩ := exists_rule_of_rewriteBody? hb
  exact change_of_rewrite? (h rule hrule) hnew

/-- Only bodies that start with a letter are changed. -/
theorem OverTable.exists_head (h : rewriter.OverTable) {body new : List Char} {label : String}
    (hb : rewriter.rewriteBody? body = some (new, label)) :
    ∃ c rest, body = c :: rest ∧ c.isAlpha = true := by
  obtain ⟨rule, hrule, hnew, -⟩ := exists_rule_of_rewriteBody? hb
  have hproper := table_isProper rule (h rule hrule)
  rw [Rule.isProper, Bool.and_eq_true] at hproper
  simp only [Rule.rewrite?, Option.ite_none_right_eq_some, Bool.and_eq_true] at hnew
  exact Guard.exists_head_of_accepts hproper.1 hnew.1.1

/-! ## Lines -/

theorem OverTable.runsTool (h : rewriter.OverTable) {line new : List Char} {label : String}
    (hl : rewriter.rewriteLine? line = some (new, label)) : RunsTool new := by
  obtain ⟨body, hbody, rfl⟩ := exists_body_of_rewriteLine? hl
  obtain ⟨rest, rfl⟩ := (h.change hbody).startsTool
  exact runsTool_of_lead line rest

/-- **A second look finds nothing to do.** -/
theorem OverTable.rewriteLine?_eq_none (h : rewriter.OverTable) {line new : List Char}
    {label : String} (hl : rewriter.rewriteLine? line = some (new, label)) :
    rewriter.rewriteLine? new = none :=
  (h.runsTool hl).rewriteLine?_eq_none rewriter

theorem OverTable.ne (h : rewriter.OverTable) {line new : List Char} {label : String}
    (hl : rewriter.rewriteLine? line = some (new, label)) : new ≠ line := by
  rintro rfl
  rw [h.rewriteLine?_eq_none hl] at hl
  cases hl

/-- New lines are as unbroken as the old ones. -/
theorem OverTable.unbroken (h : rewriter.OverTable) {line new : List Char} {label : String}
    (hl : rewriter.rewriteLine? line = some (new, label)) (hline : Unbroken line) :
    Unbroken new := by
  obtain ⟨body, hbody, rfl⟩ := exists_body_of_rewriteLine? hl
  rw [← leadOf_append_bodyOf line] at hline
  -- the body starts with a letter, so it may be cut off even behind a backslash
  obtain ⟨c, rest, hc, halpha⟩ := h.exists_head hbody
  refine hline.left.append ((h.change hbody).unbroken ⟨?_, hline.2.right_of_append⟩)
  intro hn
  rw [hc] at hn
  obtain rfl := Option.some.inj hn
  exact absurd halpha (by decide)

/-- The body of a line with nothing to run is all of it but the indentation. -/
theorem bodyOf_of_isIdle {line : List Char} (h : isIdle line = true) :
    bodyOf line = trimStart line := by
  have hnone : assignment? (trimStart line) = none := by
    rw [isIdle] at h
    split at h
    · rename_i he
      rw [he]
      rfl
    · rename_i c rest he
      obtain rfl : c = '#' := by simpa using h
      rw [he]
      rfl
  rw [bodyOf, splitAssignments]
  split
  · rfl
  · rename_i hs
    rw [hnone] at hs; cases hs

/-- **Lines with nothing to run are left alone.** -/
theorem OverTable.rewriteLine?_eq_none_of_isIdle (h : rewriter.OverTable) {line : List Char}
    (hi : isIdle line = true) : rewriter.rewriteLine? line = none := by
  cases hl : rewriter.rewriteLine? line with
  | none => rfl
  | some new =>
    obtain ⟨body, hbody, -⟩ := exists_body_of_rewriteLine? hl
    obtain ⟨c, rest, hc, halpha⟩ := h.exists_head hbody
    rw [bodyOf_of_isIdle hi] at hc
    rw [isIdle, hc] at hi
    obtain rfl : c = '#' := by simpa using hi
    exact absurd halpha (by decide)

/-! ## Commands -/

/-- The line as it will run. -/
def lineAfter (rewriter : Rewriter) (line : List Char) : List Char :=
  (rewriter.rewriteOne line).1

theorem OverTable.rewriteOne_eq (h : rewriter.OverTable) (line : List Char) :
    rewriter.rewriteOne line =
      match rewriter.rewriteLine? line with
      | none => (line, none)
      | some (new, label) => (new, some label) := by
  rw [rewriteOne]
  split
  · rename_i hi
    rw [h.rewriteLine?_eq_none_of_isIdle hi]
  · rfl

theorem OverTable.lineAfter_of_eq_none (h : rewriter.OverTable) {line : List Char}
    (hl : rewriter.rewriteLine? line = none) : rewriter.lineAfter line = line := by
  rw [lineAfter, h.rewriteOne_eq, hl]

theorem OverTable.lineAfter_of_eq_some (h : rewriter.OverTable) {line new : List Char}
    {label : String} (hl : rewriter.rewriteLine? line = some (new, label)) :
    rewriter.lineAfter line = new := by
  rw [lineAfter, h.rewriteOne_eq, hl]

theorem OverTable.label_eq_none_iff (h : rewriter.OverTable) {line : List Char} :
    (rewriter.rewriteOne line).2 = none ↔ rewriter.rewriteLine? line = none := by
  rw [h.rewriteOne_eq]
  cases rewriter.rewriteLine? line with
  | none => simp
  | some new => simp

theorem rewrite?_of_not_mem {command : List Char} (hn : '\n' ∉ command) :
    rewriter.rewrite? command =
      (rewriter.rewriteLine? command).map fun (command, label) => ⟨command, [label]⟩ := by
  rw [rewrite?, if_pos (by simpa using hn)]

/-- The labels of the rules that change the lines, each once. -/
def labelsOf (rewriter : Rewriter) (lines : List (List Char)) : List String :=
  ((lines.map rewriter.rewriteOne).filterMap Prod.snd).eraseDups

/-- Nothing is reported exactly if no rule changes a line. -/
theorem OverTable.labelsOf_isEmpty_iff (h : rewriter.OverTable) {lines : List (List Char)} :
    (rewriter.labelsOf lines).isEmpty = true ↔
      ∀ line ∈ lines, rewriter.rewriteLine? line = none := by
  unfold labelsOf
  induction lines with
  | nil => simp
  | cons line lines ih =>
    rw [List.forall_mem_cons, ← h.label_eq_none_iff, List.map_cons]
    cases hl : (rewriter.rewriteOne line).2 with
    | none => rw [List.filterMap_cons_none hl, ih]; simp
    | some label => rw [List.filterMap_cons_some hl, List.eraseDups_cons]; simp

theorem rewrite?_of_mem {command : List Char} (hn : '\n' ∈ command)
    (hd : holdsHeredoc command = false) :
    rewriter.rewrite? command =
      if (rewriter.labelsOf (linesOf command)).isEmpty then none
      else some ⟨joinLines ((linesOf command).map rewriter.lineAfter),
        rewriter.labelsOf (linesOf command)⟩ := by
  have hlines : (linesOf command).map rewriter.lineAfter =
      ((logicalLines (splitLines command)).map rewriter.rewriteOne).map Prod.fst := by
    rw [List.map_map]
    rfl
  rw [hlines, rewrite?, if_neg (by simpa using hn), hd]
  rfl

theorem rewrite?_of_holdsHeredoc {command : List Char} (hn : '\n' ∈ command)
    (hd : holdsHeredoc command = true) : rewriter.rewrite? command = none := by
  rw [rewrite?, if_neg (by simpa using hn), if_pos hd]

/-- **When a command is left alone.** Either it has several lines and holds a here-document, or no
rule changes any of its lines. -/
theorem OverTable.rewrite?_eq_none_iff (h : rewriter.OverTable) {command : List Char} :
    rewriter.rewrite? command = none ↔ ('\n' ∈ command ∧ holdsHeredoc command = true) ∨
      ∀ line ∈ linesOf command, rewriter.rewriteLine? line = none := by
  by_cases hn : '\n' ∈ command
  · by_cases hd : holdsHeredoc command = true
    · simp [rewrite?_of_holdsHeredoc hn hd, hn, hd]
    · rw [rewrite?_of_mem hn (by simpa using hd), ← h.labelsOf_isEmpty_iff]
      simp [hd]
  · simp [rewrite?_of_not_mem hn, (unbroken_of_not_mem hn).linesOf_eq, hn]

/-- **What a changed command is.** It is made of its lines as they are afterwards. -/
theorem OverTable.command_eq_of_rewrite? (h : rewriter.OverTable) {command : List Char}
    {rewrite : Rewrite} (hr : rewriter.rewrite? command = some rewrite) :
    rewrite.command = joinLines ((linesOf command).map rewriter.lineAfter) := by
  by_cases hn : '\n' ∈ command
  · by_cases hd : holdsHeredoc command = true
    · rw [rewrite?_of_holdsHeredoc hn hd] at hr
      cases hr
    · rw [rewrite?_of_mem hn (by simpa using hd), Option.ite_none_left_eq_some] at hr
      obtain rfl := Option.some.inj hr.2
      rfl
  · rw [rewrite?_of_not_mem hn] at hr
    obtain ⟨⟨new, label⟩, hl, rfl⟩ := Option.map_eq_some_iff.1 hr
    rw [(unbroken_of_not_mem hn).linesOf_eq, List.map_singleton, joinLines_singleton,
      h.lineAfter_of_eq_some hl]

end CompactShell.Rewriter
