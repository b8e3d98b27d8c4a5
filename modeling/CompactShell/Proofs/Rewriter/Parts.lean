import CompactShell.Proofs.Rule.Changes
import CompactShell.Proofs.Shell.Assignments
import CompactShell.Rewriter

/-!
# The parts of a line

A line is a lead, made of its indentation and its assignments, and a body behind the lead. Rules see
the body only, and a new line has the lead of the old one. So three facts are all that is needed
about leads.

* The scan is back at its start behind a lead (`after_leadOf`).
* A lead is read the same in front of any body that starts with neither white space nor an
  assignment (`parts_append`).
* A line whose body runs the compact tool is left alone, whatever is put behind it
  (`RunsTool.append`, `RunsTool.rewriteLine?_eq_none`).
-/

namespace CompactShell

open Rule Shell Text

/-- The indentation of the line and the assignments behind it. -/
def leadOf (line : List Char) : List Char :=
  line.takeWhile isSpace ++ (splitAssignments (trimStart line)).1

/-- The part of the line that rules are tried on. -/
def bodyOf (line : List Char) : List Char :=
  (splitAssignments (trimStart line)).2

theorem trimStart_eq (line : List Char) :
    trimStart line = (splitAssignments (trimStart line)).1 ++ bodyOf line :=
  (splitAssignments_append _).symm

theorem leadOf_append_bodyOf (line : List Char) : leadOf line ++ bodyOf line = line := by
  rw [leadOf, List.append_assoc, ← trimStart_eq]
  exact List.takeWhile_append_dropWhile

theorem plainText_indent (line : List Char) : PlainText (line.takeWhile isSpace) :=
  plainText_of_isSpace fun _ hc => List.mem_takeWhile_imp hc

/-- No quote is open behind a lead, and nothing is escaped. -/
theorem after_leadOf (line : List Char) : Scan.start.after (leadOf line) = .start := by
  rw [leadOf, Scan.after_append, Scan.after_plainText (plainText_indent line)]
  exact (splitAssignments_spec _).1.after

/-- Indentation ends where the first character stands that is not white. -/
theorem indent_append {white command : List Char} (hwhite : ∀ c ∈ white, isSpace c = true)
    (hhead : ∀ c ∈ command.head?, isSpace c = false) :
    (white ++ command).takeWhile isSpace = white ∧ trimStart (white ++ command) = command := by
  rw [trimStart, List.takeWhile_append_of_pos hwhite, List.dropWhile_append_of_pos hwhite]
  cases command with
  | nil => simp
  | cons c command =>
    have hc : ¬ isSpace c = true := by simp [hhead c rfl]
    rw [List.takeWhile_cons_of_neg hc, List.dropWhile_cons_of_neg hc, List.append_nil]
    exact ⟨rfl, rfl⟩

/-- **The lead does not depend on the body.** -/
theorem parts_append (line : List Char) {body : List Char} (hbody : assignment? body = none)
    (hhead : ∀ c ∈ body.head?, isSpace c = false) :
    leadOf (leadOf line ++ body) = leadOf line ∧ bodyOf (leadOf line ++ body) = body := by
  -- put the old assignments in front of the new body, then the old indentation in front of both
  have hassignments := (splitAssignments_spec (trimStart line)).1
  have hline : leadOf line ++ body =
      line.takeWhile isSpace ++ ((splitAssignments (trimStart line)).1 ++ body) :=
    List.append_assoc ..
  obtain ⟨htake, hdrop⟩ :=
    indent_append (fun c hc => List.mem_takeWhile_imp hc)
      (hassignments.head (fun _ => not_isSpace_of_isNameStart) hhead)
  have hsplit := hassignments.splitAssignments_append hbody
    fun c hc => not_isBlank_of_not_isSpace (hhead c hc)
  rw [hline, leadOf, bodyOf, htake, hdrop, hsplit]
  exact ⟨rfl, rfl⟩

/-! ## Lines that run the tool already -/

/-- The body of the line starts with the compact tool's name as a word. -/
def RunsTool (line : List Char) : Prop :=
  ∃ rest, bodyOf line = "rtk ".toList ++ rest

theorem assignment?_tool (rest : List Char) : assignment? ("rtk ".toList ++ rest) = none := by
  rfl

theorem runsTool_of_lead (line rest : List Char) :
    RunsTool (leadOf line ++ ("rtk ".toList ++ rest)) := by
  refine ⟨rest, (parts_append line (assignment?_tool rest) ?_).2⟩
  intro c hc
  obtain rfl : 'r' = c := by simpa using hc
  decide

/-- A line that runs the tool does so whatever is put behind it. -/
theorem RunsTool.append {line : List Char} (h : RunsTool line) (behind : List Char) :
    RunsTool (line ++ behind) := by
  obtain ⟨rest, hbody⟩ := h
  have hline : line ++ behind = leadOf line ++ ("rtk ".toList ++ (rest ++ behind)) := by
    rw [← List.append_assoc "rtk ".toList, ← hbody, ← List.append_assoc, leadOf_append_bodyOf]
  rw [hline]
  exact runsTool_of_lead line (rest ++ behind)

theorem RunsTool.invokesTool {line : List Char} (h : RunsTool line) :
    invokesTool (bodyOf line) = true := by
  obtain ⟨rest, hbody⟩ := h
  rw [hbody, CompactShell.invokesTool, Bool.or_eq_true]
  exact Or.inl (by simp [startsTool]; decide)

namespace Rewriter

/-! ## Lines by their parts -/

/-- No rule may touch the line: it runs the tool already, or holds a here-document. -/
def isTaken (line : List Char) : Bool :=
  invokesTool (trimStart line) || holdsHeredoc (trimStart line) || invokesTool (bodyOf line)

theorem rewriteLine?_eq (rewriter : Rewriter) (line : List Char) :
    rewriter.rewriteLine? line =
      if isTaken line then none
      else if !rewriter.throughOperators && hasOperator (bodyOf line) then none
      else (rewriter.rewriteBody? (bodyOf line)).map fun (body, label) =>
        (leadOf line ++ body, label) :=
  rfl

/-- **A new line is the old lead and a new body.** -/
theorem exists_body_of_rewriteLine? {rewriter : Rewriter} {line new : List Char} {label : String}
    (h : rewriter.rewriteLine? line = some (new, label)) :
    ∃ body, rewriter.rewriteBody? (bodyOf line) = some (body, label) ∧
      new = leadOf line ++ body := by
  rw [rewriteLine?_eq] at h
  split at h
  · cases h
  · split at h
    · cases h
    · obtain ⟨⟨body, label⟩, hbody, hnew⟩ := Option.map_eq_some_iff.1 h
      obtain ⟨rfl, rfl⟩ := Prod.mk.inj hnew
      exact ⟨body, hbody, rfl⟩

end Rewriter

/-- **A line that runs the tool is left alone.** -/
theorem RunsTool.rewriteLine?_eq_none (rewriter : Rewriter) {line : List Char}
    (h : RunsTool line) : rewriter.rewriteLine? line = none := by
  rw [Rewriter.rewriteLine?_eq, Rewriter.isTaken, h.invokesTool, Bool.or_true, if_pos rfl]

end CompactShell
