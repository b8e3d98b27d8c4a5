import CompactShell.Proofs.Rewriter.Lines
import CompactShell.Proofs.Rule.Exclusive
import CompactShell.Proofs.Rule.Seams
import CompactShell.Proofs.Shell.Typed

/-!
# The program that a line runs

A rule is about the commands of some programs. Where it looks for a program's name, the indentation
in front and the end of the name are white space of any kind. A shell takes blanks for that and
nothing else, so what it runs can be a program with a longer name.

`program_is_first_word_iff` says when both see the same program: the indentation has to be blank,
and so has what follows the name.
-/

namespace CompactShell

open Rule Shell Text

/-! ## Programs -/

/-- The programs whose commands the guard accepts. -/
def Rule.Guard.programs (guard : Guard) : List String :=
  guard.phrases.filterMap List.head?

example : (table.flatMap (·.guard.programs)).eraseDups =
    ["git", "gh", "cargo", "cat", "rg", "grep", "ls", "tree", "find", "diff", "head", "vitest",
      "npx", "pnpm", "npm", "vue-tsc", "tsc", "eslint", "prettier", "playwright", "prisma",
      "docker", "kubectl", "curl", "wget", "pytest", "python", "python3", "ruff", "pip", "uv", "go",
      "golangci-lint"] := by
  decide

/-- Each phrase of the guard starts with a word. -/
def Rule.Guard.namesPrograms (guard : Guard) : Bool :=
  guard.phrases.all fun phrase => phrase.head?.any isPhraseWord

theorem table_namesPrograms : ∀ rule ∈ table, rule.guard.namesPrograms = true := by
  decide +kernel

theorem isPhraseWord_of_mem_programs {guard : Guard} (h : guard.namesPrograms = true)
    {program : String} (hprogram : program ∈ guard.programs) : isPhraseWord program = true := by
  obtain ⟨phrase, hphrase, hhead⟩ := List.mem_filterMap.1 hprogram
  have hword := List.all_eq_true.1 h phrase hphrase
  rwa [hhead, Option.any_some] at hword

/-- **What a guard accepts starts with one of its programs**, and white space or nothing follows. -/
theorem exists_program_of_accepts {guard : Guard} (hsolid : guard.isSolid = true)
    (hnames : guard.namesPrograms = true) {body : List Char} (h : guard.accepts body = true) :
    ∃ program ∈ guard.programs, ∃ rest, body = program.toList ++ rest ∧
      Stop.edge.allows rest = true := by
  obtain ⟨phrase, hphrase, hstarts⟩ := Guard.exists_phrase_of_accepts hsolid h
  cases phrase with
  | nil => cases List.all_eq_true.1 hnames [] hphrase
  | cons program phrase =>
    obtain ⟨rest, hrest⟩ := Option.isSome_iff_exists.1 hstarts
    obtain ⟨hafter, hedge⟩ := Option.filter_eq_some_iff.1 hrest
    obtain ⟨more, hbody, hmore, -⟩ := exists_first_of_afterPhrase? hafter hedge
    exact ⟨program, List.mem_filterMap.2 ⟨_, hphrase, rfl⟩, more, hbody, hmore⟩

/-! ## First words -/

/-- The first word of the command that a line runs, behind its blanks and its assignments. -/
def firstWord? (line : List Char) : Option Word :=
  (words (splitAssignments (line.dropWhile isBlank)).2).head?

/-- The first word of a text goes on with the name that the text starts with. -/
theorem exists_first_word {name : List Char} (hne : name ≠ []) (hplain : PlainText name)
    (hsolid : ∀ c ∈ name, isBlank c = false) (rest : List Char) :
    ∃ word, (words (name ++ rest)).head? = some word ∧
      word.raw = name ++ (pieces .start rest).1.raw := by
  obtain ⟨hraw, -⟩ := pieces_solid_append hplain hsolid rest
  have hsome : (pieces .start (name ++ rest)).1.raw ≠ [] := by
    rw [hraw]
    exact List.append_ne_nil_of_left_ne_nil hne _
  exact ⟨_, congrArg List.head? (words_of_piece hsome), hraw⟩

theorem raw_pieces_of_blank {rest : List Char} (h : ∀ c ∈ rest.head?, isBlank c = true) :
    (pieces .start rest).1.raw = [] := by
  cases rest with
  | nil => rfl
  | cons c rest =>
    rw [pieces_of_separates (separates_of_isBlank (h c rfl) rest)]

/-- White space starts no assignment. -/
theorem splitAssignments_of_isSpace {c : Char} (h : isSpace c = true) (rest : List Char) :
    (splitAssignments (c :: rest)).2 = c :: rest := by
  have hsplit := splitAssignments_append (c :: rest)
  have hassignments := (splitAssignments_spec (c :: rest)).1
  generalize (splitAssignments (c :: rest)).1 = assignments at hsplit hassignments
  cases hassignments with
  | nil => exact hsplit
  | cons hfirst _ =>
    obtain ⟨d, more, rfl, hd⟩ := hfirst.head
    obtain rfl : d = c := (List.cons.inj hsplit).1
    rw [not_isSpace_of_isNameStart hd] at h
    cases h

/-- Where the indentation is blank, a shell sees the body that rules see. -/
theorem firstWord?_of_blank {line : List Char}
    (h : ∀ c ∈ line.takeWhile isSpace, isBlank c = true) :
    firstWord? line = (words (bodyOf line)).head? := by
  have hhead : (trimStart line).dropWhile isBlank = trimStart line := by
    cases htext : trimStart line with
    | nil => rfl
    | cons c rest =>
      have hc : isSpace c = false := head?_dropWhile c (by rw [← trimStart, htext]; rfl)
      refine List.dropWhile_cons_of_neg ?_
      rw [not_isBlank_of_not_isSpace hc]
      exact Bool.false_ne_true
  have hline : line.takeWhile isSpace ++ trimStart line = line := List.takeWhile_append_dropWhile
  have hsame : line.dropWhile isBlank = trimStart line := by
    rw [← hline, List.dropWhile_append_of_pos h, hline, hhead]
  rw [firstWord?, hsame]
  rfl

/-- Where it is not, the first word has white space in it. -/
theorem firstWord?_of_not_blank {line : List Char}
    (h : ¬ ∀ c ∈ line.takeWhile isSpace, isBlank c = true) :
    ∃ word, firstWord? line = some word ∧ ∃ c ∈ word.raw, isSpace c = true := by
  cases hindent : (line.takeWhile isSpace).dropWhile isBlank with
  | nil => exact absurd (List.dropWhile_eq_nil_iff.1 hindent) h
  | cons c more =>
    have hblank : isBlank c = false := head?_dropWhile c (by rw [hindent]; rfl)
    have hmem : c ∈ line.takeWhile isSpace := by
      refine (List.dropWhile_suffix isBlank).subset ?_
      rw [hindent]
      exact List.mem_cons_self ..
    have hspace : isSpace c = true := List.mem_takeWhile_imp hmem
    have hwhole : line.takeWhile isSpace ++ trimStart line = line :=
      List.takeWhile_append_dropWhile
    have hline : line.dropWhile isBlank = c :: (more ++ trimStart line) := by
      calc line.dropWhile isBlank
          = (line.takeWhile isSpace ++ trimStart line).dropWhile isBlank := by rw [hwhole]
        _ = c :: (more ++ trimStart line) := by rw [List.dropWhile_append, hindent]; rfl
    have hplain : PlainText [c] := by
      rw [PlainText, List.forall_mem_singleton]
      exact isPlain_of_isSpace hspace
    obtain ⟨word, hword, hraw⟩ := exists_first_word (List.cons_ne_nil c []) hplain
      (List.forall_mem_singleton.2 hblank) (more ++ trimStart line)
    refine ⟨word, ?_, c, ?_, hspace⟩
    · rw [firstWord?, hline, splitAssignments_of_isSpace hspace]
      exact hword
    · rw [hraw]
      exact List.mem_cons_self ..

/-! ## Rewritten lines -/

/-- **When a rewritten line runs a program of the rule that rewrote it.** The rule has found the
name of one at the start of the body. A shell finds the name of one for its first word exactly if
the indentation is blank, and blanks or nothing stand behind the name. -/
theorem Rewriter.program_is_first_word_iff {rewriter : Rewriter} (htable : rewriter.OverTable)
    {command : List Char} (hline : '\n' ∉ command) {r : Rewrite}
    (h : rewriter.rewrite? command = some r) :
    ∃ rule ∈ rewriter.rules, r.labels = [rule.label] ∧
      ∃ program ∈ rule.guard.programs, ∃ rest, bodyOf command = program.toList ++ rest ∧
        ((∃ name ∈ rule.guard.programs, firstWord? command = some (Word.ofText name.toList)) ↔
          (∀ c ∈ command.takeWhile isSpace, isBlank c = true) ∧
            ∀ c ∈ rest.head?, isBlank c = true) := by
  rw [rewrite?_of_not_mem hline] at h
  obtain ⟨⟨new, label⟩, hnew, rfl⟩ := Option.map_eq_some_iff.1 h
  obtain ⟨body, hbody, -⟩ := exists_body_of_rewriteLine? hnew
  obtain ⟨rule, hrule, hrewrite, rfl⟩ := exists_rule_of_rewriteBody? hbody
  have haccepts := (rewrite?_eq_some_iff_apply.1 hrewrite).1
  have hnames := table_namesPrograms rule (htable rule hrule)
  obtain ⟨program, hprogram, rest, hsplit, hedge⟩ :=
    exists_program_of_accepts (table_isSolid rule (htable rule hrule)) hnames haccepts
  have hword : ∀ name ∈ rule.guard.programs, ∀ c ∈ name.toList,
      isPlain c = true ∧ isSpace c = false :=
    fun name hname => (isPhraseWord_spec (isPhraseWord_of_mem_programs hnames hname)).1
  have hne : program.toList ≠ [] := by
    obtain ⟨c, letters, hletters, -⟩ :=
      (isPhraseWord_spec (isPhraseWord_of_mem_programs hnames hprogram)).2
    rw [hletters]
    exact List.cons_ne_nil c letters
  have hplain : PlainText program.toList := fun c hc => (hword program hprogram c hc).1
  have hsolid : ∀ c ∈ program.toList, isBlank c = false :=
    fun c hc => not_isBlank_of_not_isSpace (hword program hprogram c hc).2
  obtain ⟨word, hfirst, hraw⟩ := exists_first_word hne hplain hsolid rest
  rw [← hsplit] at hfirst
  refine ⟨rule, hrule, rfl, program, hprogram, rest, hsplit, ?_, ?_⟩
  · rintro ⟨name, hname, hseen⟩
    by_cases hindent : ∀ c ∈ command.takeWhile isSpace, isBlank c = true
    · refine ⟨hindent, ?_⟩
      rw [firstWord?_of_blank hindent, hfirst] at hseen
      obtain rfl := Option.some.inj hseen
      intro c hc
      by_contra hblank
      -- white space that is no blank would belong to the name
      obtain ⟨more, rfl⟩ := List.head?_eq_some_iff.1 hc
      have hspace : isSpace c = true := by simpa [Stop.allows, startsWithSpace] using hedge
      obtain ⟨hpiece, -⟩ :=
        pieces_solid_cons (isPlain_of_isSpace hspace) (eq_false_of_ne_true hblank) more
      have hmem : c ∈ name.toList := by
        have hname : name.toList = program.toList ++ (pieces .start (c :: more)).1.raw := hraw
        rw [hname, hpiece]
        exact List.mem_append_right _ (List.mem_cons_self ..)
      rw [(hword name hname c hmem).2] at hspace
      cases hspace
    · obtain ⟨first, hother, c, hmem, hspace⟩ := firstWord?_of_not_blank hindent
      rw [hseen] at hother
      obtain rfl := Option.some.inj hother
      rw [(hword name hname c hmem).2] at hspace
      cases hspace
  · rintro ⟨hindent, hblank⟩
    refine ⟨program, hprogram, ?_⟩
    rw [raw_pieces_of_blank hblank, List.append_nil] at hraw
    rw [firstWord?_of_blank hindent, hfirst, ← hraw,
      ofText_raw_of_mem_words (List.mem_of_mem_head? hfirst)]

theorem Rewriter.program_is_first_word_iff_assigned :
    Rewriter.builtIn.rewrite? "  CI=1 git status".toList =
        some ⟨"  CI=1 rtk git status".toList, ["git"]⟩ ∧
      ∃ name ∈ ["git"], firstWord? "  CI=1 git status".toList =
        some (Word.ofText name.toList) := by
  have hrewrite : Rewriter.builtIn.rewrite? "  CI=1 git status".toList =
      some ⟨"  CI=1 rtk git status".toList, ["git"]⟩ := by decide +kernel
  obtain ⟨rule, hrule, hlabel, program, hprogram, rest, hbody, hiff⟩ :=
    Rewriter.program_is_first_word_iff Rewriter.overTable_builtIn (by decide) hrewrite
  have hprograms : ∀ rule ∈ Rewriter.builtIn.rules, ["git"] = [rule.label] →
      rule.guard.programs = ["git"] := by decide +kernel
  rw [hprograms rule hrule hlabel] at hprogram hiff
  obtain rfl := List.mem_singleton.1 hprogram
  have hsplit : bodyOf "  CI=1 git status".toList = "git".toList ++ " status".toList := by
    decide +kernel
  obtain rfl := List.append_cancel_left (hsplit.symm.trans hbody)
  have hindent : "  CI=1 git status".toList.takeWhile isSpace = [' ', ' '] := by decide
  refine ⟨hrewrite, hiff.2 ⟨?_, ?_⟩⟩
  · intro c hc
    rw [hindent, List.mem_pair] at hc
    rcases hc with rfl | rfl
    · rfl
    · rfl
  · intro c hc
    obtain rfl : ' ' = c := Option.some.inj hc
    rfl

/-- A no-break space is white space for a rule and a character of the name for a shell. -/
theorem Rewriter.longer_name_rewritten :
    Rewriter.builtIn.rewrite? "cat\u00a0notes.txt".toList =
        some ⟨"rtk read\u00a0notes.txt".toList, ["cat → rtk read"]⟩ ∧
      firstWord? "cat\u00a0notes.txt".toList = some (Word.ofText "cat\u00a0notes.txt".toList) ∧
      ∀ rule ∈ table, "cat\u00a0notes.txt" ∉ rule.guard.programs := by
  decide +kernel

end CompactShell
