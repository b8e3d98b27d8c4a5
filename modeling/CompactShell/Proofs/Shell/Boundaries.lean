import CompactShell.Proofs.Shell.Lines
import CompactShell.Shell.Quoting

/-!
# Where commands end and where logical lines end

To a shell, a newline ends a command if it is live: outside quotes and not escaped. Logical lines
are told apart by less. A line goes on if its last character is a backslash, whatever stands in
front of that backslash (`isBoundary_iff`).

The two agree on most newlines, but not behind an escaped backslash. The shell has no continuation
there, since the second backslash of a pair escapes nothing, and the logical line goes on. Those are
all the live newlines inside logical lines (`isBoundary_iff_of_isLive`).
-/

namespace CompactShell.Shell

open Text

/-! ## Ends of logical lines -/

/-- The newline between the two texts stands between two logical lines of the whole. -/
def IsBoundary (before behind : List Char) : Prop :=
  ∃ front back, linesOf (before ++ '\n' :: behind) = front ++ back ∧
    joinLines front = before ∧ joinLines back = behind

theorem isContinued_joinLines {lines : List (List Char)} {last : List Char}
    (h : lines.getLast? = some last) : isContinued (joinLines lines) = isContinued last := by
  induction lines with
  | nil => cases h
  | cons line lines ih =>
    cases lines with
    | nil =>
      have he : line = last := by simpa using h
      rw [joinLines_singleton, he]
    | cons next lines =>
      rw [joinLines_cons_cons, isContinued_append_newline]
      exact ih (by rwa [List.getLast?_cons_cons] at h)

/-- A boundary has a logical line on either side. -/
theorem ne_nil_of_joinLines {before behind : List Char} {front back : List (List Char)}
    (h : linesOf (before ++ '\n' :: behind) = front ++ back)
    (hf : joinLines front = before) (hb : joinLines back = behind) : front ≠ [] ∧ back ≠ [] := by
  have hwhole := joinLines_linesOf (before ++ '\n' :: behind)
  rw [h] at hwhole
  -- with nothing on one side there would be no newline between the two
  have hlen := congrArg List.length hwhole
  rw [List.length_append, List.length_cons, ← hf, ← hb] at hlen
  constructor
  · rintro rfl
    rw [List.nil_append] at hlen
    omega
  · rintro rfl
    rw [List.append_nil] at hlen
    omega

/-- **A newline ends a logical line unless a backslash stands in front of it.** -/
theorem isBoundary_iff {before behind : List Char} :
    IsBoundary before behind ↔ isContinued before = false := by
  constructor
  · rintro ⟨front, back, hlines, hf, hb⟩
    obtain ⟨hfront, hback⟩ := ne_nil_of_joinLines hlines hf hb
    have hlast := List.getLast?_eq_some_getLast hfront
    have hmem : front.getLast hfront ∈ (linesOf (before ++ '\n' :: behind)).dropLast := by
      rw [hlines, List.dropLast_append_of_ne_nil hback]
      exact List.mem_append_left _ (List.getLast_mem hfront)
    rw [← hf, isContinued_joinLines hlast]
    exact isContinued_of_mem_dropLast _ hmem
  · intro h
    exact ⟨linesOf before, linesOf behind, linesOf_append_newline behind h,
      joinLines_linesOf before, joinLines_linesOf behind⟩

/-! ## Ends of commands -/

/-- What is escaped stands behind a backslash that escapes. -/
theorem exists_escape {text : List Char} (h : (Scan.start.after text).escaped = true) :
    ∃ before, text = before ++ ['\\'] ∧ (Scan.start.after before).isEscape '\\' = true := by
  rcases List.eq_nil_or_concat' text with rfl | ⟨before, c, rfl⟩
  · cases h
  · rw [Scan.after_append, Scan.after_cons, Scan.after_nil, Scan.next] at h
    split at h
    · rename_i hc
      have hback : c = '\\' := by
        simp only [Scan.isEscape, Bool.and_eq_true, decide_eq_true_eq] at hc
        exact hc.1.2
      exact ⟨before, by rw [hback], hback ▸ hc⟩
    · split at h
      · cases h
      · cases h

/-- A live character behind a backslash has an escaped backslash in front of it. -/
theorem escaped_of_isLive {s : Scan} {c : Char} (h : (s.next '\\').isLive c = true) :
    s.escaped = true := by
  have hstart := congrArg Scan.quoting (Scan.next_of_isLive h)
  cases he : s.escaped with
  | true => rfl
  | false =>
    exfalso
    simp only [Scan.isLive, Bool.and_eq_true, Bool.not_eq_true', beq_iff_eq] at h
    obtain ⟨⟨⟨⟨hescaped, hbare⟩, -⟩, -⟩, -⟩ := h
    -- outside single quotes the backslash would escape, inside them it leaves them open
    by_cases hq : s.quoting = .single
    · simp [Scan.next, Scan.isEscape, Scan.isToggle, he, hq] at hbare
    · simp [Scan.next, Scan.isEscape, he, hq] at hescaped

/-- **Which ends of commands are missed.** A newline outside quotes that is not escaped stands
between two logical lines, except behind an escaped backslash, where it never does. -/
theorem isBoundary_iff_of_isLive {before behind : List Char}
    (hlive : (Scan.start.after before).isLive '\n' = true) :
    IsBoundary before behind ↔
      ¬ ∃ lead, before = lead ++ ['\\', '\\'] ∧ (Scan.start.after lead).isEscape '\\' = true := by
  rw [isBoundary_iff, ← Bool.not_eq_true]
  refine not_congr ⟨fun hc => ?_, ?_⟩
  · rw [isContinued, beq_iff_eq, List.getLast?_eq_some_iff] at hc
    obtain ⟨front, rfl⟩ := hc
    rw [Scan.after_append, Scan.after_cons, Scan.after_nil] at hlive
    obtain ⟨lead, rfl, hlead⟩ := exists_escape (escaped_of_isLive hlive)
    exact ⟨lead, by simp, hlead⟩
  · rintro ⟨lead, rfl, -⟩
    simp [isContinued]

/-- Behind a quoted backslash and behind one that is escaped. -/
theorem isBoundary_quoted :
    (Scan.start.after "echo 'a\\'".toList).isLive '\n' = true ∧
      IsBoundary "echo 'a\\'".toList "cat b".toList ∧
      (Scan.start.after "echo a\\\\".toList).isLive '\n' = true ∧
      ¬ IsBoundary "echo a\\\\".toList "cat b".toList := by
  have hquoted : (Scan.start.after "echo 'a\\'".toList).isLive '\n' = true := by decide
  have hescaped : (Scan.start.after "echo a\\\\".toList).isLive '\n' = true := by decide
  refine ⟨hquoted, (isBoundary_iff_of_isLive hquoted).2 ?_, hescaped, fun h => ?_⟩
  · rintro ⟨lead, hlead, -⟩
    have hback : lead ++ ['\\', '\\'] = (lead ++ ['\\']) ++ ['\\'] := by simp
    have hlast := congrArg List.getLast? hlead
    rw [hback, List.getLast?_concat] at hlast
    exact absurd hlast (by decide)
  · exact (isBoundary_iff_of_isLive hescaped).1 h ⟨"echo a".toList, by decide, by decide⟩

end CompactShell.Shell
