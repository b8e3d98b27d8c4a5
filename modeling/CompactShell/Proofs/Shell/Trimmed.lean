import CompactShell.Proofs.Shell.Boundaries
import CompactShell.Proofs.Shell.Cut
import CompactShell.Proofs.Shell.Typed

/-!
# What is trimmed in front of an operator

The command in front of an operator loses the white space at its end. Where that is blank, and
nothing in front of it escapes the first blank, it separates words and no word is changed. But white
space of other kinds belongs to words. So does a blank that is escaped, and an escaped newline takes
its backslash with it when it separates words, so that trimming leaves a backslash behind.

`words_kept_by_cut_iff` says that there is no other white space that may go.
-/

namespace CompactShell.Shell

open Text

/-- The white space behind a text is blank, and the text escapes none of it. -/
def IsLoose (text white : List Char) : Prop :=
  IsWhole text ∧ ∀ c ∈ white, isBlank c = true

theorem IsLoose.words_eq {text white : List Char} (h : IsLoose text white) :
    words (text ++ white) = words text :=
  words_append_of_isGap h.1 (isGap_of_blank h.2)

/-- White space behind an open escape is no gap: its first character is a part of a word, or goes
with the backslash. -/
theorem typedFrom_escaped_white_ne {white : List Char} (h : ∀ c ∈ white, isSpace c = true)
    (hne : white ≠ []) : typedFrom .start ('\\' :: white) ≠ ['\\'] := by
  obtain ⟨c, white, rfl⟩ := List.exists_cons_of_ne_nil hne
  rw [List.forall_mem_cons] at h
  have hescape : Scan.start.next '\\' = ⟨.bare, true⟩ := rfl
  by_cases hnewline : c = '\n'
  · subst hnewline
    have hback : '\\' ∉ typedFrom .start white := by
      intro hmem
      exact absurd (h.2 _ (mem_of_mem_typedFrom hmem)) (by decide)
    intro heq
    refine hback ?_
    have hsame : typedFrom .start ('\\' :: '\n' :: white) = typedFrom .start white := rfl
    rw [← hsame, heq]
    exact List.mem_singleton_self _
  · have hback : Scan.start.separates '\\' (c :: white) = false := by
      simp [Scan.separates, Scan.start, isBlank, hnewline]
    have hnext : Scan.separates ⟨.bare, true⟩ c white = false := by
      simp [Scan.separates, hnewline]
    rw [typedFrom, hback, hescape, typedFrom, hnext]
    simp

/-- Outside quotes, a backslash that escapes stands behind a closed text. -/
theorem exists_whole_of_escaped {text : List Char}
    (hquoting : (Scan.start.after text).quoting = .bare)
    (hescaped : (Scan.start.after text).escaped = true) :
    ∃ before, text = before ++ ['\\'] ∧ IsWhole before := by
  obtain ⟨before, rfl, hescape⟩ := exists_escape hescaped
  rw [Scan.after_append, Scan.after_cons, Scan.after_nil, Scan.next, if_pos hescape] at hquoting
  simp only [Scan.isEscape, Bool.and_eq_true, Bool.not_eq_true'] at hescape
  exact ⟨before, rfl, Scan.eq_start hquoting hescape.1.1⟩

/-- **White space that may go.** The words of a text are not changed by white space behind it
exactly if that is loose. -/
theorem words_append_white_iff {text white : List Char} (hwhole : IsWhole (text ++ white))
    (hwhite : ∀ c ∈ white, isSpace c = true) :
    words text = words (text ++ white) ↔ IsLoose text white := by
  refine ⟨fun h => ?_, fun h => h.words_eq.symm⟩
  have htyped : typedFrom .start text = typedFrom .start (text ++ white) := by
    rw [← flatMap_raw_words, h, flatMap_raw_words]
  have hquoting : (Scan.start.after text).quoting = .bare := by
    rw [IsWhole, Scan.after_append] at hwhole
    rw [← quoting_after_white hwhite, hwhole]
    rfl
  by_cases hescaped : (Scan.start.after text).escaped = true
  · exfalso
    obtain ⟨before, rfl, hbefore⟩ := exists_whole_of_escaped hquoting hescaped
    have hne : white ≠ [] := by
      rintro rfl
      rw [List.append_nil] at hwhole
      rw [hwhole] at hescaped
      cases hescaped
    have hclosed : (Scan.start.after before).escaped = false := by rw [hbefore]; rfl
    rw [List.append_assoc, typedFrom_append hclosed, typedFrom_append hclosed,
      List.append_cancel_left_eq, hbefore] at htyped
    exact typedFrom_escaped_white_ne hwhite hne htyped.symm
  · have hstart : Scan.start.after text = .start :=
      Scan.eq_start hquoting (eq_false_of_ne_true hescaped)
    rw [typedFrom_append (by rw [hstart]; rfl), List.self_eq_append_right, hstart,
      typedFrom_white hwhite, List.filter_eq_nil_iff] at htyped
    exact ⟨hstart, fun c hc => by simpa using htyped c hc⟩

/-- **When a cut keeps the words in front of the operator.** A command with an operator is cut in
front of it, and of the digits of a descriptor or the ampersand that go with it. The part in front
keeps its words exactly if the white space that it loses is loose. -/
theorem words_kept_by_cut_iff {command : List Char} {position : Nat}
    (h : findOperator command = some position) :
    ∃ front lead op rest, command = front ++ (lead ++ op :: rest) ∧
      (front ++ lead).length = position ∧ IsLead op lead ∧
      splitAtOperator command = (trimEnd front, ' ' :: (lead ++ op :: rest)) ∧
      (words (trimEnd front) = words front ↔
        ∃ white, front = trimEnd front ++ white ∧ IsLoose (trimEnd front) white) := by
  obtain ⟨front, lead, op, rest, hcut, hposition, hlead⟩ := exists_isCut_lead h
  refine ⟨front, lead, op, rest, hcut.append.symm, hposition, hlead, hcut.split, ?_⟩
  obtain ⟨white, hfront, hwhite⟩ := trimEnd_spec front
  have hwhole : IsWhole (trimEnd front ++ white) := by
    rw [← hfront]
    exact hcut.start
  have hkept := words_append_white_iff hwhole hwhite
  rw [← hfront] at hkept
  rw [hkept]
  constructor
  · exact fun hloose => ⟨white, hfront, hloose⟩
  · rintro ⟨same, hsame, hloose⟩
    obtain rfl := List.append_cancel_left (hsame.symm.trans hfront)
    exact hloose

/-- Blanks in front of a redirection and its descriptor, the first of them behind an escaped
backslash. -/
theorem words_kept_by_cut_iff_descriptor :
    findOperator "grep x a\\\\ \t2>log".toList = some 13 ∧
      splitAtOperator "grep x a\\\\ \t2>log".toList =
        ("grep x a\\\\".toList, " 2>log".toList) ∧
      words "grep x a\\\\".toList = words "grep x a\\\\ \t".toList := by
  have hfind : findOperator "grep x a\\\\ \t2>log".toList = some 13 := by decide
  have hsplit : splitAtOperator "grep x a\\\\ \t2>log".toList =
      ("grep x a\\\\".toList, " 2>log".toList) := by decide
  obtain ⟨front, lead, op, rest, hcommand, -, -, hcut, hkept⟩ := words_kept_by_cut_iff hfind
  obtain ⟨hpart, htail⟩ := Prod.mk.inj (hsplit.symm.trans hcut)
  have htail : lead ++ op :: rest = "2>log".toList := (List.cons.inj htail).2.symm
  obtain rfl : front = "grep x a\\\\ \t".toList := by
    rw [htail] at hcommand
    have hsame : "grep x a\\\\ \t".toList ++ "2>log".toList = front ++ "2>log".toList := hcommand
    exact (List.append_cancel_right hsame).symm
  rw [← hpart] at hkept
  exact ⟨hfind, hsplit, hkept.2 ⟨" \t".toList, rfl, by decide, by simp [isBlank]⟩⟩

/-- An escaped blank is a part of the word in front of it, and goes all the same. -/
theorem escaped_blank_trimmed :
    splitAtOperator "grep -n x a\\ | sort".toList =
        ("grep -n x a\\".toList, " | sort".toList) ∧
      words "grep -n x a\\".toList ≠ words "grep -n x a\\ ".toList := by
  decide

end CompactShell.Shell
