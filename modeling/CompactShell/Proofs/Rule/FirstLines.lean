import CompactShell.Proofs.Rule.Changes
import CompactShell.Proofs.Shell.Typed

/-!
# The words of a read of first lines

A `head` command is read as a text: the file is all that stands behind the white space behind the
count, up to the end of the line. The words of the command are another matter. White space that is
no blank belongs to words, a newline does too, and at the end of the text a backslash in front of a
newline is no character at all.

`file_kept_iff` says when the two views agree. The words behind the count are those of the file
exactly if the file is what stands behind the word with the count, but for blanks.
-/

namespace CompactShell.Rule

open Search Shell Text

/-! ## White space, a file and perhaps a newline -/

variable {white target newline : List Char}

/-- The front of a text that is no longer than another front of it. -/
theorem exists_append_of_length_le {α : Type} {a b c d : List α} (h : a ++ b = c ++ d)
    (hlength : a.length ≤ c.length) : ∃ more, c = a ++ more ∧ b = more ++ d := by
  rcases List.append_eq_append_iff.1 h with ⟨more, hc, hb⟩ | ⟨more, ha, hd⟩
  · exact ⟨more, hc, hb⟩
  · have hnil : more = [] := by
      rw [ha, List.length_append] at hlength
      exact List.eq_nil_of_length_eq_zero (by omega)
    subst hnil
    exact ⟨[], by rw [ha, List.append_nil, List.append_nil], hd.symm⟩

/-- The characters of the words, in front of the file and in it. -/
theorem raw_append_behind (hwhite : ∀ c ∈ white, isSpace c = true) (text : List Char) :
    (pieces .start (white ++ text)).1.raw ++
        (pieces .start (white ++ text)).2.flatMap Word.raw =
      white.filter (!isBlank ·) ++ typedFrom .start text := by
  have hafter : Scan.start.after white = .start :=
    Scan.after_plainText (plainText_of_isSpace hwhite)
  rw [append_flatMap_raw, typedFrom_append (by rw [hafter]; rfl), hafter, typedFrom_white hwhite]

/-- **If the words behind the count are those of the file**, what is left behind the count's own
word is the file. -/
theorem behind_eq_file (hwhite : ∀ c ∈ white, isSpace c = true) (hline : '\n' ∉ target)
    (h : (pieces .start (white ++ target)).2 = words target) :
    ((white ++ target).dropWhile (!isBlank ·)).dropWhile isBlank = target.dropWhile isBlank := by
  have hraw := raw_append_behind hwhite target
  rw [h, flatMap_raw_words, List.append_cancel_right_eq] at hraw
  obtain ⟨after, hrest, hends⟩ := exists_after_piece .start (white ++ target)
  rw [hraw] at hrest hends
  -- the count's own word has a part of the white space, and blanks are left of it
  obtain ⟨gap, hgap, rfl⟩ :=
    exists_append_of_length_le hrest.symm (List.length_filter_le _ _)
  have hsolid : ∀ c ∈ white.filter (!isBlank ·), (!isBlank c) = true :=
    fun c hc => (List.mem_filter.1 hc).2
  have hnone : gap.filter (!isBlank ·) = [] := by
    have hfilter := congrArg (List.filter (!isBlank ·)) hgap
    rw [List.filter_append, List.filter_eq_self.2 hsolid] at hfilter
    exact List.self_eq_append_right.1 hfilter
  have hblank : ∀ c ∈ gap, isBlank c = true := by
    intro c hc
    by_contra hno
    have hmem : c ∈ gap.filter (!isBlank ·) := List.mem_filter.2 ⟨hc, by simpa using hno⟩
    rw [hnone] at hmem
    exact List.not_mem_nil hmem
  have hstop : (gap ++ target).dropWhile (!isBlank ·) = gap ++ target := by
    have hafter : Scan.start.after (white.filter (!isBlank ·)) = .start :=
      Scan.after_plainText fun c hc => isPlain_of_isSpace (hwhite c (List.mem_filter.1 hc).1)
    rw [hafter] at hends
    rcases hends with hnil | ⟨c, more, hcons, hsep⟩
    · rw [hnil]
      rfl
    · rw [hcons]
      rcases (separates_cases hsep).2 with ⟨-, hc | rfl⟩ | ⟨-, rfl, hnewline⟩
      · rw [List.dropWhile_cons_of_neg (by simp [hc])]
      · cases hsep
      · -- a backslash in front of a newline is no part of white space or of a file
        obtain ⟨more, rfl⟩ := List.head?_eq_some_iff.1 hnewline
        have hmem : '\n' ∈ gap ++ target := by
          rw [hcons]
          exact List.mem_cons_of_mem _ (List.mem_cons_self ..)
        rcases List.mem_append.1 hmem with hmem | hmem
        · cases hblank _ hmem
        · exact absurd hmem hline
  rw [hrest, List.dropWhile_append_of_pos hsolid, hstop, List.dropWhile_append_of_pos hblank]

/-- No text of white space and a file goes on with the white space without its blanks and a
newline. -/
theorem not_newline_behind_white (hne : target ≠ []) (hline : '\n' ∉ target) (after : List Char) :
    white ++ (target ++ ['\n']) ≠ white.filter (!isBlank ·) ++ ['\n'] ++ after := by
  intro h
  have hsolid : ∀ c ∈ white.filter (!isBlank ·) ++ ['\n'], (!isBlank c) = true := by
    intro c hc
    rcases List.mem_append.1 hc with hc | hc
    · exact (List.mem_filter.1 hc).2
    · rw [List.mem_singleton.1 hc]
      rfl
  have hle : (white.filter (!isBlank ·)).length ≤ white.length := List.length_filter_le _ _
  by_cases hshort : (white.filter (!isBlank ·) ++ ['\n']).length ≤ white.length
  · -- the white space would have one character more without a blank than it has
    obtain ⟨gap, hgap, -⟩ := exists_append_of_length_le h.symm hshort
    have hfilter : (white.filter (!isBlank ·)).length =
        ((white.filter (!isBlank ·) ++ ['\n'] ++ gap).filter (!isBlank ·)).length :=
      congrArg (fun text => (text.filter (!isBlank ·)).length) hgap
    rw [List.filter_append, List.filter_eq_self.2 hsolid, List.length_append, List.length_append,
      List.length_singleton] at hfilter
    omega
  · -- there is no blank in it, so the file would start with the newline
    rw [List.length_append, List.length_singleton] at hshort
    have hall : white.filter (!isBlank ·) = white :=
      List.filter_sublist.eq_of_length (by omega)
    rw [hall, List.append_assoc, List.append_cancel_left_eq] at h
    obtain ⟨c, rest, rfl⟩ := List.exists_cons_of_ne_nil hne
    obtain rfl : c = '\n' := (List.cons.inj h).1
    exact hline (List.mem_cons_self ..)

/-- A newline behind the file is a character of a word, and no word of the file has it. -/
theorem behind_ne_words_of_newline (hwhite : ∀ c ∈ white, isSpace c = true) (hne : target ≠ [])
    (hline : '\n' ∉ target) (hwhole : IsWhole target) :
    (pieces .start (white ++ (target ++ ['\n']))).2 ≠ words target := by
  intro h
  have hraw := raw_append_behind hwhite (target ++ ['\n'])
  have hnewline : typedFrom (Scan.start.after target) ['\n'] = ['\n'] := by rw [hwhole]; rfl
  rw [h, flatMap_raw_words, typedFrom_append (by rw [hwhole]; rfl), hnewline] at hraw
  obtain ⟨after, hrest, -⟩ := exists_after_piece .start (white ++ (target ++ ['\n']))
  generalize (pieces .start (white ++ (target ++ ['\n']))).1.raw = first at hraw hrest
  have hlength := congrArg List.length hraw
  simp only [List.length_append, List.length_singleton] at hlength
  -- the count's own word goes on with the white space, and then with one character
  obtain ⟨last, rfl, hlast⟩ := exists_append_of_length_le hraw.symm (by omega)
  rw [List.length_append] at hlength
  obtain ⟨d, rfl⟩ := List.length_eq_one_iff.1 (by omega : last.length = 1)
  cases htyped : typedFrom .start target with
  | nil =>
    rw [htyped] at hlast
    obtain rfl : '\n' = d := (List.cons.inj hlast).1
    exact not_newline_behind_white hne hline after hrest
  | cons c typed =>
    rw [htyped] at hlast
    have hmore : typed ++ ['\n'] = c :: typed := (List.cons.inj hlast).2
    have hmem : '\n' ∈ typedFrom .start target := by
      rw [htyped, ← hmore]
      exact List.mem_append_right _ (List.mem_singleton_self _)
    exact hline (mem_of_mem_typedFrom hmem)

/-- A backslash at the end of the file's name takes the blank behind it for a part of a word. -/
theorem words_ne_of_escaped (hwhite : ∀ c ∈ white, isSpace c = true)
    (hnewline : newline = [] ∨ newline = ['\n']) (hescaped : Scan.start.after target = ⟨.bare, true⟩)
    {count : List Char} (hcount : ∀ c ∈ count, isDecimal c = true) :
    words (joinBlank ["rtk".toList, "read".toList, target, "--max-lines".toList, count]) ≠
      [Word.ofText "rtk".toList, Word.ofText "read".toList] ++
        ((pieces .start (white ++ (target ++ newline))).2 ++
          [Word.ofText "--max-lines".toList, Word.ofText count]) := by
  intro h
  -- both sides have the blanks that belong to words, and the left one has one more
  have hblanks := congrArg (fun ws => (ws.flatMap Word.raw).count ' ') h
  have hnew : joinBlank ["rtk".toList, "read".toList, target, "--max-lines".toList, count] =
      "rtk read ".toList ++ (target ++ (" --max-lines ".toList ++ count)) := by
    simp [joinBlank_cons_cons]
  have hfront : Scan.start.after "rtk read ".toList = .start := by decide
  have hown : (typedFrom .start "rtk read ".toList).count ' ' = 0 := by decide
  have hescape : (typedFrom ⟨.bare, true⟩ " --max-lines ".toList).count ' ' = 1 := by decide
  have hbehind := congrArg (List.count ' ') (raw_append_behind hwhite (target ++ newline))
  have hgap : (white.filter (!isBlank ·)).count ' ' = 0 := by
    rw [List.count_eq_zero]
    exact fun hmem => absurd (List.mem_filter.1 hmem).2 (by decide)
  have hend : (typedFrom (Scan.start.after target) newline).count ' ' = 0 := by
    rw [List.count_eq_zero]
    intro hmem
    rcases hnewline with rfl | rfl
    · cases mem_of_mem_typedFrom hmem
    · exact absurd (mem_of_mem_typedFrom hmem) (by decide)
  have hlimit : ([Word.ofText "--max-lines".toList, Word.ofText count].flatMap
      Word.raw).count ' ' = 0 := by
    rw [List.count_eq_zero, List.flatMap_cons, List.flatMap_singleton, List.mem_append]
    rintro (hmem | hmem)
    · exact absurd hmem (by decide)
    · exact absurd (hcount ' ' hmem) (by decide)
  have hprogram : ([Word.ofText "rtk".toList, Word.ofText "read".toList].flatMap
      Word.raw).count ' ' = 0 := by decide
  simp only [flatMap_raw_words, hnew, count_typedFrom_append, hfront, hown, hescaped, hescape,
    List.flatMap_append, List.count_append, hprogram, hlimit] at hblanks
  simp only [count_typedFrom_append, List.count_append, hgap, hend] at hbehind
  omega

/-- What is left of a text with a newline at its end has the newline, if it is not empty. -/
theorem newline_mem_dropWhile {text : List Char}
    (hne : (text ++ ['\n']).dropWhile (!isBlank ·) ≠ []) :
    '\n' ∈ ((text ++ ['\n']).dropWhile (!isBlank ·)).dropWhile isBlank := by
  have hlast : ((text ++ ['\n']).dropWhile (!isBlank ·)).getLast? = some '\n' := by
    obtain ⟨front, hfront⟩ := List.dropWhile_suffix (!isBlank ·) (l := text ++ ['\n'])
    have hwhole := congrArg List.getLast? hfront
    rw [List.getLast?_append, List.getLast?_concat] at hwhole
    cases hrest : ((text ++ ['\n']).dropWhile (!isBlank ·)).getLast? with
    | none => exact absurd (List.getLast?_eq_none_iff.1 hrest) hne
    | some last =>
      rw [hrest] at hwhole
      exact hwhole
  have hmem := List.mem_of_getLast? hlast
  rw [← List.takeWhile_append_dropWhile (p := isBlank)
    (l := (text ++ ['\n']).dropWhile (!isBlank ·)), List.mem_append] at hmem
  rcases hmem with hmem | hmem
  · cases List.mem_takeWhile_imp hmem
  · exact hmem

/-- **If the file is what is left behind the count's own word**, the words behind the count are
those of the file, and no newline follows. -/
theorem behind_eq_words (hwhite : ∀ c ∈ white, isSpace c = true) (hne : target ≠ [])
    (hline : '\n' ∉ target) (hnewline : newline = [] ∨ newline = ['\n'])
    (h : ((white ++ (target ++ newline)).dropWhile (!isBlank ·)).dropWhile isBlank =
      target.dropWhile isBlank) :
    newline = [] ∧ (pieces .start (white ++ (target ++ newline))).2 = words target := by
  rcases hnewline with rfl | rfl
  · rw [List.append_nil] at h ⊢
    refine ⟨rfl, ?_⟩
    have hsplit : (white ++ target).takeWhile (!isBlank ·) ++
        (white ++ target).dropWhile (!isBlank ·) =
          (white ++ target.takeWhile isBlank) ++ target.dropWhile isBlank := by
      rw [List.takeWhile_append_dropWhile, List.append_assoc, List.takeWhile_append_dropWhile]
    have hle : (target.dropWhile isBlank).length ≤
        ((white ++ target).dropWhile (!isBlank ·)).length := by
      rw [← h]
      exact (List.dropWhile_suffix _).length_le
    have hlength := congrArg List.length hsplit
    rw [List.length_append, List.length_append] at hlength
    -- so the count's own word goes on with white space only
    obtain ⟨more, hmore, -⟩ := exists_append_of_length_le hsplit (by omega)
    have hplain : PlainText ((white ++ target).takeWhile (!isBlank ·)) := by
      intro c hc
      have hmem : c ∈ white ++ target.takeWhile isBlank := by
        rw [hmore]
        exact List.mem_append_left _ hc
      rcases List.mem_append.1 hmem with hmem | hmem
      · exact isPlain_of_isSpace (hwhite c hmem)
      · exact isPlain_of_isBlank (List.mem_takeWhile_imp hmem)
    have hsolid : ∀ c ∈ (white ++ target).takeWhile (!isBlank ·), isBlank c = false := by
      intro c hc
      simpa using List.mem_takeWhile_imp hc
    calc (pieces .start (white ++ target)).2
        = (pieces .start ((white ++ target).dropWhile (!isBlank ·))).2 := by
          have hfront := (pieces_solid_append hplain hsolid
            ((white ++ target).dropWhile (!isBlank ·))).2
          rwa [List.takeWhile_append_dropWhile] at hfront
      _ = words ((white ++ target).dropWhile (!isBlank ·)) := behind_dropWhile_not_isBlank _
      _ = words (target.dropWhile isBlank) := by rw [← h, words_dropWhile_isBlank]
      _ = words target := words_dropWhile_isBlank _
  · exfalso
    rw [← List.append_assoc] at h
    by_cases hnone : (white ++ target ++ ['\n']).dropWhile (!isBlank ·) = []
    · -- without a blank in the text, the file would be one
      rw [hnone, List.dropWhile_nil, eq_comm, List.dropWhile_eq_nil_iff] at h
      rw [List.dropWhile_eq_nil_iff] at hnone
      obtain ⟨c, rest, rfl⟩ := List.exists_cons_of_ne_nil hne
      have hblank : isBlank c = true := h c (List.mem_cons_self ..)
      have hsolid := hnone c (by simp)
      rw [hblank] at hsolid
      cases hsolid
    · have hmem := newline_mem_dropWhile hnone
      rw [h] at hmem
      exact hline ((List.dropWhile_suffix _).subset hmem)

/-! ## Reads of first lines -/

theorem plainText_of_isDecimal {count : List Char} (h : ∀ c ∈ count, isDecimal c = true) :
    PlainText count :=
  fun c hc => isPlain_of_isDecimal (h c hc)

theorem not_isBlank_of_isDecimal {count : List Char} (h : ∀ c ∈ count, isDecimal c = true) :
    ∀ c ∈ count, isBlank c = false :=
  fun c hc => not_isBlank_of_class (by decide) (h c hc)

theorem words_read_first_lines {count : List Char} (hwhole : IsWhole target) (hcount : IsWord count) :
    words (joinBlank ["rtk".toList, "read".toList, target, "--max-lines".toList, count]) =
      [Word.ofText "rtk".toList, Word.ofText "read".toList] ++
        (words target ++ [Word.ofText "--max-lines".toList, Word.ofText count]) := by
  have hprogram : IsWord "rtk".toList := by decide
  have hread : IsWord "read".toList := by decide
  have hlimit : IsWord "--max-lines".toList := by decide
  rw [joinBlank_cons_cons, hprogram.words_append_blank, joinBlank_cons_cons,
    hread.words_append_blank, joinBlank_cons_cons, words_append_blank hwhole, joinBlank_cons_cons,
    hlimit.words_append_blank, joinBlank_singleton, hcount.words_eq]
  rfl

/-- A newline ends a text that is whole behind it if the text was, or if it ends with an escape. -/
theorem start_or_escaped_of_newline {s : Scan} (h : s.after ['\n'] = .start) :
    s = .start ∨ s = ⟨.bare, true⟩ := by
  obtain ⟨q, e⟩ := s
  have hnext : (⟨q, e⟩ : Scan).next '\n' = ⟨q, false⟩ := Scan.next_of_isPlain _ (by decide)
  obtain rfl : q = .bare := congrArg Scan.quoting (hnext.symm.trans h)
  cases e with
  | false => exact .inl rfl
  | true => exact .inr rfl

/-- What is written for the file and the count has the words behind the count's own word exactly
if the file is what is left there, but for blanks. -/
theorem words_read_iff (hwhite : ∀ c ∈ white, isSpace c = true) (hne : target ≠ [])
    (hline : '\n' ∉ target) (hnewline : newline = [] ∨ newline = ['\n'])
    (hend : Scan.start.after (target ++ newline) = .start) {count : List Char}
    (hdecimal : ∀ c ∈ count, isDecimal c = true) (hcount : IsWord count) :
    words (joinBlank ["rtk".toList, "read".toList, target, "--max-lines".toList, count]) =
        [Word.ofText "rtk".toList, Word.ofText "read".toList] ++
          ((pieces .start (white ++ (target ++ newline))).2 ++
            [Word.ofText "--max-lines".toList, Word.ofText count]) ↔
      ((white ++ (target ++ newline)).dropWhile (!isBlank ·)).dropWhile isBlank =
        target.dropWhile isBlank := by
  constructor
  · intro hkept
    have hbehind : IsWhole target →
        (pieces .start (white ++ (target ++ newline))).2 = words target := by
      intro hwhole
      rw [words_read_first_lines hwhole hcount, List.append_cancel_left_eq,
        List.append_cancel_right_eq] at hkept
      exact hkept.symm
    rcases hnewline with rfl | rfl
    · rw [List.append_nil] at hend hbehind ⊢
      exact behind_eq_file hwhite hline (hbehind hend)
    · rw [Scan.after_append] at hend
      rcases start_or_escaped_of_newline hend with hstart | hescaped
      · exact absurd (hbehind hstart) (behind_ne_words_of_newline hwhite hne hline hstart)
      · exact absurd hkept (words_ne_of_escaped hwhite (.inr rfl) hescaped hdecimal)
  · intro hfile
    obtain ⟨rfl, hbehind⟩ := behind_eq_words hwhite hne hline hnewline hfile
    rw [List.append_nil] at hend
    rw [words_read_first_lines hend hcount, hbehind]

/-- The count ends a word of the command or stands inside one, and the other words are behind. -/
theorem exists_counted_word {body count rest : List Char}
    (h : headCount? body = some (count, rest)) :
    ∃ lead before counted, words body = lead ++ counted :: (pieces .start rest).2 ∧
      counted.raw = before ++ (count ++ (pieces .start rest).1.raw) := by
  obtain ⟨front, hbody, hfront, hdecimal, -, -, hne, lead, hlead⟩ := headCount?_spec h
  obtain ⟨hraw, hbehind⟩ := pieces_solid_append (plainText_of_isDecimal hdecimal)
    (not_isBlank_of_isDecimal hdecimal) rest
  have hpiece : (pieces .start (count ++ rest)).1.raw ≠ [] := by
    rw [hraw]
    exact List.append_ne_nil_of_left_ne_nil hne _
  have hplain : PlainText lead := by
    intro c hc
    refine hfront.plain c ?_
    rw [← hlead]
    exact List.mem_append_left _ hc
  obtain ⟨words, before, counted, hwords, hcounted⟩ :=
    exists_words_plainText_append hplain hpiece
  rw [hbehind, ← List.append_assoc, hlead, ← hbody] at hwords
  rw [hraw] at hcounted
  exact ⟨words, before, counted, hwords, hcounted⟩

/-- **When a read of first lines keeps the words behind the count.** They are the words of the
compact command between its name and the limit exactly if the file is what is left of the command
behind the word with the count, but for blanks. -/
theorem file_kept_iff {rule : Rule} (haction : rule.action = .head) {body new : List Char}
    (hwhole : IsWhole body) (hfree : hasOperator body = false)
    (h : rule.rewrite? body = some new) :
    ∃ count rest target, headCount? body = some (count, rest) ∧ headTarget? rest = some target ∧
      (∃ lead before counted, words body = lead ++ counted :: (pieces .start rest).2 ∧
        counted.raw = before ++ (count ++ (pieces .start rest).1.raw)) ∧
      (words new = [Word.ofText "rtk".toList, Word.ofText "read".toList] ++
          ((pieces .start rest).2 ++ [Word.ofText "--max-lines".toList, Word.ofText count]) ↔
        (rest.dropWhile (!isBlank ·)).dropWhile isBlank = target.dropWhile isBlank) := by
  obtain ⟨-, hchanges, happly⟩ := rewrite?_eq_some_iff_apply.1 h
  rw [haction] at hchanges happly
  have hnew : translateHead? body = some new := by
    rw [← happly]
    exact eq_some_of_getD_ne hchanges
  rw [translateHead?, splitAtOperator_of_eq_none (hasOperator_eq_false_iff.1 hfree)] at hnew
  obtain ⟨⟨count, rest⟩, hcount, hnew⟩ := Option.bind_eq_some_iff.1 hnew
  obtain ⟨target, htarget, rfl⟩ := Option.map_eq_some_iff.1 hnew
  obtain ⟨front, hbody, hfront, hdecimal, -, -, hne, -⟩ := headCount?_spec hcount
  obtain ⟨white, newline, rfl, hwhite, hnewline, hsome, hline⟩ := headTarget?_spec htarget
  have hword : IsWord count := isWord_of_plainText hne (plainText_of_isDecimal hdecimal)
    (not_isBlank_of_isDecimal hdecimal)
  have hend : Scan.start.after (target ++ newline) = .start := by
    have hafter : Scan.start.after white = .start :=
      Scan.after_plainText (plainText_of_isSpace hwhite)
    rwa [IsWhole, hbody, Scan.after_append, Scan.after_plainText hfront.plain,
      Scan.after_append, hafter] at hwhole
  rw [List.append_nil]
  exact ⟨count, _, target, hcount, htarget, exists_counted_word hcount,
    words_read_iff hwhite hsome hline hnewline hend hdecimal hword⟩

theorem file_kept_iff_quoted :
    Rule.rewrite? ⟨"head → rtk read", .lineCount, .head⟩ "head --lines=5 'my notes'".toList =
        some "rtk read 'my notes' --max-lines 5".toList ∧
      words "rtk read 'my notes' --max-lines 5".toList =
        ["rtk", "read", "'my notes'", "--max-lines", "5"].map (Word.ofText ·.toList) := by
  have hrewrite : Rule.rewrite? ⟨"head → rtk read", .lineCount, .head⟩
      "head --lines=5 'my notes'".toList = some "rtk read 'my notes' --max-lines 5".toList := by
    decide +kernel
  obtain ⟨count, rest, target, hcount, htarget, -, hiff⟩ :=
    file_kept_iff rfl (by decide +kernel) (by decide +kernel) hrewrite
  have hread : headCount? "head --lines=5 'my notes'".toList =
      some ("5".toList, " 'my notes'".toList) := by decide +kernel
  obtain ⟨rfl, rfl⟩ := Prod.mk.inj (Option.some.inj (hread.symm.trans hcount))
  have hfile : headTarget? " 'my notes'".toList = some "'my notes'".toList := by decide +kernel
  obtain rfl := Option.some.inj (hfile.symm.trans htarget)
  exact ⟨hrewrite, hiff.2 (by decide +kernel)⟩

/-- A line that goes on is read as if it ended with its backslash, which then escapes the blank in
front of the limit. -/
theorem continued_file_takes_limit :
    Rule.rewrite? ⟨"head → rtk read", .lineCount, .head⟩ "head -5 notes.txt\\\n".toList =
        some "rtk read notes.txt\\ --max-lines 5".toList ∧
      words "head -5 notes.txt\\\n".toList =
        ["head", "-5", "notes.txt"].map (Word.ofText ·.toList) ∧
      words "rtk read notes.txt\\ --max-lines 5".toList ≠
        ["rtk", "read", "notes.txt", "--max-lines", "5"].map (Word.ofText ·.toList) := by
  decide +kernel

end CompactShell.Rule
