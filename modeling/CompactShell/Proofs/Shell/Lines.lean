import CompactShell.Shell.Line
import Mathlib.Data.List.Chain

/-!
# Logical lines are what they look like

A logical line is unbroken: each newline in it stands behind a backslash (`Unbroken`). That is all
there is to know about one. Lines put together and cut again come back as they were, but for one
thing: a line that ends in a backslash takes in the line behind it (`linesOf_joinLines`).

So a command whose lines have been exchanged for other unbroken lines is read line by line again.
Where it is not, the longer line starts with the line that ended in a backslash
(`mem_logicalLines_cases`).

Reading leaves lines of one shape: unbroken ones, of which only the last may be continued
(`AreLogical`). No others of that shape make up the same text (`logicalLines_canonical`).
-/

namespace CompactShell.Shell

open Text

/-! ## Unbroken texts -/

/-- The character stands where it does not end a logical line. -/
def Holds (before c : Char) : Prop :=
  c = '\n' → before = '\\'

/-- Every newline of the text stands behind a backslash. -/
def Unbroken (text : List Char) : Prop :=
  text.head? ≠ some '\n' ∧ text.IsChain Holds

theorem unbroken_nil : Unbroken [] :=
  ⟨by simp, .nil⟩

theorem unbroken_of_not_mem {text : List Char} (h : '\n' ∉ text) : Unbroken text := by
  induction text with
  | nil => exact unbroken_nil
  | cons c text ih =>
    rw [List.mem_cons, not_or] at h
    refine ⟨fun he => h.1 (Option.some.inj he).symm, (ih h.2).2.cons ?_⟩
    rintro d hd rfl
    exact absurd (List.mem_of_mem_head? hd) h.2

theorem Unbroken.append {a b : List Char} (ha : Unbroken a) (hb : Unbroken b) :
    Unbroken (a ++ b) := by
  refine ⟨?_, ha.2.append hb.2 ?_⟩
  · cases a with
    | nil => exact hb.1
    | cons c a => exact ha.1
  · rintro c - d hd rfl
    exact absurd hd hb.1

theorem Unbroken.left {a b : List Char} (h : Unbroken (a ++ b)) : Unbroken a := by
  refine ⟨?_, h.2.left_of_append⟩
  cases a with
  | nil => simp
  | cons c a => exact h.1

/-- What stands behind anything but a backslash is unbroken by itself. -/
theorem Unbroken.right {a b : List Char} (h : Unbroken (a ++ b)) (ha : a.getLast? ≠ some '\\') :
    Unbroken b := by
  refine ⟨?_, h.2.right_of_append⟩
  intro hb
  rcases List.eq_nil_or_concat' a with rfl | ⟨init, c, rfl⟩
  · exact h.1 hb
  · have hc := (List.isChain_append.1 h.2).2.2 c (by simp) '\n' hb rfl
    exact ha (by rw [hc]; simp)

/-- A newline may be put behind a backslash. -/
theorem Unbroken.continue {a b : List Char} (ha : Unbroken a) (hc : isContinued a = true)
    (hb : Unbroken b) : Unbroken (a ++ '\n' :: b) := by
  rw [isContinued, beq_iff_eq] at hc
  refine ⟨?_, ha.2.append (hb.2.cons ?_) ?_⟩
  · cases a with
    | nil => simp at hc
    | cons c a => exact ha.1
  · rintro d hd rfl
    exact absurd hd hb.1
  · rintro c hl - - -
    rw [hc] at hl
    exact (Option.some.inj hl).symm

/-- An unbroken text is a line, or a continued line and an unbroken text behind it. -/
theorem Unbroken.cases {text : List Char} (h : Unbroken text) (hn : '\n' ∈ text) :
    ∃ a b, text = a ++ '\n' :: b ∧ '\n' ∉ a ∧ isContinued a = true ∧ Unbroken b := by
  obtain ⟨a, b, rfl, ha⟩ := List.eq_append_cons_of_mem hn
  obtain ⟨-, hright, hseam⟩ := List.isChain_append.1 h.2
  refine ⟨a, b, rfl, ha, ?_, ?_, hright.tail⟩
  · rcases List.eq_nil_or_concat' a with rfl | ⟨init, c, rfl⟩
    · exact absurd rfl h.1
    · rw [isContinued, hseam c (by simp) '\n' rfl rfl]; simp
  · intro hb
    exact absurd ((List.isChain_cons.1 hright).1 '\n' hb rfl) (by decide)

/-! ## Reading logical lines -/

theorem logicalLines_cons_of_continued {line next : List Char} {rest lines : List (List Char)}
    (hc : isContinued line = true) (hr : logicalLines rest = next :: lines) :
    logicalLines (line :: rest) = (line ++ '\n' :: next) :: lines := by
  rw [logicalLines, hc, hr]

theorem logicalLines_cons_of_not_continued {line : List Char} (rest : List (List Char))
    (hc : isContinued line = false) : logicalLines (line :: rest) = line :: logicalLines rest := by
  rw [logicalLines, hc]

/-- The last line is read as it is, continued or not. -/
theorem logicalLines_cons_of_nil {line : List Char} {rest : List (List Char)}
    (hr : logicalLines rest = []) : logicalLines (line :: rest) = [line] := by
  rw [logicalLines, hr]
  split <;> simp_all

theorem logicalLines_ne_nil {lines : List (List Char)} (h : lines ≠ []) :
    logicalLines lines ≠ [] := by
  obtain ⟨line, rest, rfl⟩ := List.exists_cons_of_ne_nil h
  rw [logicalLines]
  split <;> simp

/-- A line is read with what the lines behind it are read as. -/
theorem logicalLines_cons_congr {line : List Char} {rest rest' : List (List Char)}
    (h : logicalLines rest = logicalLines rest') :
    logicalLines (line :: rest) = logicalLines (line :: rest') := by
  rw [logicalLines, logicalLines, h]

theorem isContinued_append_newline (a b : List Char) :
    isContinued (a ++ '\n' :: b) = isContinued b := by
  rcases List.eq_nil_or_concat' b with rfl | ⟨init, c, rfl⟩
  · simp [isContinued]
  · have : a ++ '\n' :: (init ++ [c]) = (a ++ '\n' :: init) ++ [c] := by simp
    rw [isContinued, isContinued, this, List.getLast?_concat, List.getLast?_concat]

/-- A continued line may as well be put together with the next line first. -/
theorem logicalLines_continue {a b : List Char} (rest : List (List Char))
    (ha : isContinued a = true) :
    logicalLines (a :: b :: rest) = logicalLines ((a ++ '\n' :: b) :: rest) := by
  by_cases hb : isContinued b = true
  · cases hr : logicalLines rest with
    | nil =>
      rw [logicalLines_cons_of_continued ha (logicalLines_cons_of_nil hr),
        logicalLines_cons_of_nil hr]
    | cons next lines =>
      rw [logicalLines_cons_of_continued ha (logicalLines_cons_of_continued hb hr),
        logicalLines_cons_of_continued (by rw [isContinued_append_newline, hb]) hr]
      simp
  · have hb : isContinued b = false := by simpa using hb
    rw [logicalLines_cons_of_continued ha (logicalLines_cons_of_not_continued rest hb),
      logicalLines_cons_of_not_continued rest (by rw [isContinued_append_newline, hb])]

/-! ## The logical lines of a command -/

/-- Logical lines made of unbroken lines are unbroken. -/
theorem unbroken_of_mem_logicalLines {lines : List (List Char)} (h : ∀ l ∈ lines, Unbroken l) :
    ∀ l ∈ logicalLines lines, Unbroken l := by
  induction lines with
  | nil => exact fun l hl => absurd hl (by simp [logicalLines])
  | cons line rest ih =>
    have hline := h line (List.mem_cons_self ..)
    have hrest := ih fun l hl => h l (List.mem_cons_of_mem _ hl)
    intro l hl
    rw [logicalLines] at hl
    split at hl
    · rename_i next lines hc hr
      rw [hr] at hrest
      rcases List.mem_cons.mp hl with rfl | hl
      · exact hline.continue hc (hrest next (List.mem_cons_self ..))
      · exact hrest l (List.mem_cons_of_mem _ hl)
    · rcases List.mem_cons.mp hl with rfl | hl
      · exact hline
      · exact hrest l hl

/-- Only the last logical line can end in a backslash. -/
theorem isContinued_of_mem_dropLast {lines : List (List Char)} :
    ∀ l ∈ (logicalLines lines).dropLast, isContinued l = false := by
  induction lines with
  | nil => exact fun l hl => absurd hl (by simp [logicalLines])
  | cons line rest ih =>
    intro l hl
    by_cases hc : isContinued line = true
    · cases hr : logicalLines rest with
      | nil =>
        rw [logicalLines_cons_of_nil hr] at hl
        exact absurd hl (by simp)
      | cons next lines =>
        rw [logicalLines_cons_of_continued hc hr] at hl
        rw [hr] at ih
        cases lines with
        | nil => simp at hl
        | cons second lines =>
          rw [List.dropLast_cons_cons] at hl ih
          rcases List.mem_cons.mp hl with rfl | hl
          · rw [isContinued_append_newline]; exact ih next (List.mem_cons_self ..)
          · exact ih l (List.mem_cons_of_mem _ hl)
    · have hc : isContinued line = false := by simpa using hc
      rw [logicalLines_cons_of_not_continued rest hc] at hl
      cases hr : logicalLines rest with
      | nil =>
        rw [hr] at hl
        exact absurd hl (by simp)
      | cons next lines =>
        rw [hr, List.dropLast_cons_cons] at hl
        rcases List.mem_cons.mp hl with rfl | hl
        · exact hc
        · exact ih l (by rw [hr]; exact hl)

/-- Lines of which none but the last is continued are logical lines already. -/
theorem logicalLines_eq_self {lines : List (List Char)}
    (h : ∀ l ∈ lines.dropLast, isContinued l = false) : logicalLines lines = lines := by
  induction lines with
  | nil => rfl
  | cons line rest ih =>
    cases rest with
    | nil => rw [logicalLines]; simp [logicalLines]
    | cons next rest =>
      rw [List.dropLast_cons_cons] at h
      rw [logicalLines_cons_of_not_continued _ (h line (List.mem_cons_self ..)),
        ih fun l hl => h l (List.mem_cons_of_mem _ hl)]

/-- **Lines whose last one is not continued stand by themselves.** What follows them is read as if
it came first. -/
theorem logicalLines_append {front : List (List Char)} (back : List (List Char))
    (h : ∀ line ∈ front.getLast?, isContinued line = false) :
    logicalLines (front ++ back) = logicalLines front ++ logicalLines back := by
  induction front with
  | nil => rfl
  | cons line front ih =>
    cases front with
    | nil =>
      have hc : isContinued line = false := h line rfl
      rw [List.singleton_append, logicalLines_cons_of_not_continued _ hc,
        logicalLines_cons_of_not_continued _ hc]
      rfl
    | cons second front =>
      have hrest := ih fun l hl => h l (by rwa [List.getLast?_cons_cons])
      obtain ⟨next, lines, hr⟩ :=
        List.exists_cons_of_ne_nil (logicalLines_ne_nil (List.cons_ne_nil second front))
      rw [hr] at hrest
      by_cases hc : isContinued line = true
      · rw [List.cons_append, logicalLines_cons_of_continued hc hr,
          logicalLines_cons_of_continued hc hrest]
        rfl
      · have hc : isContinued line = false := by simpa using hc
        rw [List.cons_append, logicalLines_cons_of_not_continued _ hc,
          logicalLines_cons_of_not_continued _ hc, hrest, hr]
        rfl

/-- **What becomes of lines when continuations are put together.** A line is read as it is, or it
is continued and starts a longer one. -/
theorem mem_logicalLines_cases {lines : List (List Char)} {l : List Char}
    (hl : l ∈ logicalLines lines) :
    l ∈ lines ∨ ∃ m ∈ lines.dropLast, isContinued m = true ∧ ∃ x, l = m ++ '\n' :: x := by
  induction lines with
  | nil => exact absurd hl (by simp [logicalLines])
  | cons line rest ih =>
    have hback : l ∈ logicalLines rest → l ∈ line :: rest ∨
        ∃ m ∈ (line :: rest).dropLast, isContinued m = true ∧ ∃ x, l = m ++ '\n' :: x := by
      intro h
      cases rest with
      | nil => exact absurd h (by simp [logicalLines])
      | cons next rest =>
        rcases ih h with h | ⟨m, hm, hx⟩
        · exact Or.inl (List.mem_cons_of_mem _ h)
        · refine Or.inr ⟨m, ?_, hx⟩
          rw [List.dropLast_cons_cons]
          exact List.mem_cons_of_mem _ hm
    rw [logicalLines] at hl
    split at hl
    · rename_i next lines hc hr
      rcases List.mem_cons.mp hl with rfl | hl
      · -- a line that takes in another is not the last
        refine Or.inr ⟨line, ?_, hc, next, rfl⟩
        cases rest with
        | nil => simp [logicalLines] at hr
        | cons second rest => rw [List.dropLast_cons_cons]; exact List.mem_cons_self ..
      · exact hback (by rw [hr]; exact List.mem_cons_of_mem _ hl)
    · rcases List.mem_cons.mp hl with rfl | hl
      · exact Or.inl (List.mem_cons_self ..)
      · exact hback hl

/-! ## Cutting and joining -/

theorem splitLines_of_not_mem {text : List Char} (h : '\n' ∉ text) : splitLines text = [text] :=
  List.splitOn_eq_singleton h

theorem splitLines_append_newline (a b : List Char) :
    splitLines (a ++ '\n' :: b) = splitLines a ++ splitLines b :=
  List.splitOn_append_cons_self a b

theorem splitLines_ne_nil (text : List Char) : splitLines text ≠ [] :=
  List.splitOn_ne_nil '\n' text

theorem not_mem_of_mem_splitLines {text line : List Char} (h : line ∈ splitLines text) :
    '\n' ∉ line := by
  induction hn : text.length using Nat.strongRecOn generalizing text with
  | ind n ih =>
    by_cases hnl : '\n' ∈ text
    · obtain ⟨a, b, rfl, ha⟩ := List.eq_append_cons_of_mem hnl
      rw [splitLines_append_newline, splitLines_of_not_mem ha, List.singleton_append] at h
      rcases List.mem_cons.mp h with rfl | h
      · exact ha
      · exact ih b.length (by rw [← hn]; simp; omega) h rfl
    · rw [splitLines_of_not_mem hnl, List.mem_singleton] at h
      exact h ▸ hnl

theorem joinLines_cons_cons (a b : List Char) (lines : List (List Char)) :
    joinLines (a :: b :: lines) = a ++ '\n' :: joinLines (b :: lines) := by
  simp [joinLines, List.intercalate_cons_cons]

@[simp] theorem joinLines_singleton (line : List Char) : joinLines [line] = line :=
  List.intercalate_singleton

theorem joinLines_append {front back : List (List Char)} (hf : front ≠ []) (hb : back ≠ []) :
    joinLines (front ++ back) = joinLines front ++ '\n' :: joinLines back := by
  induction front with
  | nil => exact absurd rfl hf
  | cons line front ih =>
    cases front with
    | nil =>
      obtain ⟨next, back, rfl⟩ := List.exists_cons_of_ne_nil hb
      rw [List.singleton_append, joinLines_cons_cons, joinLines_singleton]
    | cons second front =>
      have hrest := ih (List.cons_ne_nil second front)
      rw [List.cons_append] at hrest
      rw [List.cons_append, List.cons_append, joinLines_cons_cons, joinLines_cons_cons, hrest]
      simp

/-- The last piece of a text ends as the text does. -/
theorem isContinued_of_mem_getLast? {text line : List Char}
    (h : line ∈ (splitLines text).getLast?) : isContinued line = isContinued text := by
  induction hn : text.length using Nat.strongRecOn generalizing text with
  | ind n ih =>
    by_cases hnl : '\n' ∈ text
    · obtain ⟨a, b, rfl, ha⟩ := List.eq_append_cons_of_mem hnl
      rw [splitLines_append_newline, List.getLast?_append_of_ne_nil _ (splitLines_ne_nil b)] at h
      have hlen : b.length < n := by rw [← hn, List.length_append, List.length_cons]; omega
      rw [isContinued_append_newline]
      exact ih b.length hlen h rfl
    · rw [splitLines_of_not_mem hnl] at h
      have he : text = line := by simpa using h
      rw [he]

/-- Joining the logical lines gives back what joining the lines gives. -/
theorem joinLines_logicalLines (lines : List (List Char)) :
    joinLines (logicalLines lines) = joinLines lines := by
  induction lines with
  | nil => rfl
  | cons line rest ih =>
    cases rest with
    | nil => rw [logicalLines_eq_self (by simp)]
    | cons second rest =>
      rw [joinLines_cons_cons, ← ih]
      obtain ⟨next, lines, hr⟩ :=
        List.exists_cons_of_ne_nil (logicalLines_ne_nil (List.cons_ne_nil second rest))
      by_cases hc : isContinued line = true
      · rw [logicalLines_cons_of_continued hc hr, hr]
        cases lines with
        | nil => simp
        | cons third lines => simp [joinLines_cons_cons]
      · rw [logicalLines_cons_of_not_continued _ (by simpa using hc), hr, joinLines_cons_cons]

/-- The pieces of an unbroken line are put together again. -/
theorem logicalLines_splitLines_append {m : List Char} (hm : Unbroken m)
    (rest : List (List Char)) :
    logicalLines (splitLines m ++ rest) = logicalLines (m :: rest) := by
  induction hn : m.length using Nat.strongRecOn generalizing m with
  | ind n ih =>
    by_cases hnl : '\n' ∈ m
    · obtain ⟨a, b, rfl, ha, hc, hb⟩ := hm.cases hnl
      have hb' := ih b.length (by rw [← hn]; simp; omega) hb rfl
      rw [splitLines_append_newline, splitLines_of_not_mem ha, List.singleton_append,
        List.cons_append, logicalLines_cons_congr hb', logicalLines_continue rest hc]
    · rw [splitLines_of_not_mem hnl, List.singleton_append]

/-- The logical lines of a command. -/
def linesOf (command : List Char) : List (List Char) :=
  logicalLines (splitLines command)

theorem linesOf_ne_nil (command : List Char) : linesOf command ≠ [] :=
  logicalLines_ne_nil (splitLines_ne_nil command)

@[simp] theorem joinLines_linesOf (command : List Char) :
    joinLines (linesOf command) = command := by
  rw [linesOf, joinLines_logicalLines, joinLines_splitLines]

/-- The logical lines of a text that is not continued end where the text does. -/
theorem linesOf_append_newline {front : List Char} (back : List Char)
    (h : isContinued front = false) :
    linesOf (front ++ '\n' :: back) = linesOf front ++ linesOf back := by
  rw [linesOf, splitLines_append_newline]
  refine logicalLines_append _ fun line hline => ?_
  rw [isContinued_of_mem_getLast? hline, h]

/-- The logical lines of a command are unbroken. -/
theorem unbroken_of_mem_linesOf {command l : List Char} (hl : l ∈ linesOf command) : Unbroken l :=
  unbroken_of_mem_logicalLines
    (fun _ hm => unbroken_of_not_mem (not_mem_of_mem_splitLines hm)) l hl

/-- **Unbroken lines are read line by line.** What a second reading puts together is only what
follows a line that ends in a backslash. -/
theorem linesOf_joinLines {lines : List (List Char)} (ne : lines ≠ [])
    (h : ∀ l ∈ lines, Unbroken l) : linesOf (joinLines lines) = logicalLines lines := by
  unfold linesOf
  induction lines with
  | nil => exact absurd rfl ne
  | cons line rest ih =>
    have hline := h line (List.mem_cons_self ..)
    cases rest with
    | nil =>
      rw [joinLines_singleton]
      have := logicalLines_splitLines_append hline []
      rwa [List.append_nil] at this
    | cons next rest =>
      rw [joinLines_cons_cons, splitLines_append_newline, logicalLines_splitLines_append hline]
      exact logicalLines_cons_congr
        (ih (List.cons_ne_nil _ _) fun l hl => h l (List.mem_cons_of_mem _ hl))

/-- An unbroken text is one logical line. -/
theorem Unbroken.linesOf_eq {line : List Char} (h : Unbroken line) : linesOf line = [line] := by
  have := linesOf_joinLines (List.cons_ne_nil line []) (by simpa using h)
  rwa [joinLines_singleton, logicalLines_eq_self (by simp)] at this

/-! ## The shape of logical lines -/

/-- Lines as a reading leaves them: none but the last is continued, and each newline in one of them
stands behind a backslash. -/
structure AreLogical (lines : List (List Char)) : Prop where
  ended : ∀ line ∈ lines.dropLast, isContinued line = false
  unbroken : ∀ line ∈ lines, Unbroken line

theorem areLogical_logicalLines {lines : List (List Char)} (h : ∀ line ∈ lines, Unbroken line) :
    AreLogical (logicalLines lines) :=
  ⟨isContinued_of_mem_dropLast, unbroken_of_mem_logicalLines h⟩

/-- Lines of that shape are read back from the text that they make up. -/
theorem AreLogical.linesOf_eq {lines : List (List Char)} (h : AreLogical lines) (ne : lines ≠ []) :
    linesOf (joinLines lines) = lines := by
  rw [linesOf_joinLines ne h.unbroken, logicalLines_eq_self h.ended]

/-- **Logical lines are canonical.** Lines without newlines are put together without a loss, into
lines of the one shape. Cutting their text and putting the pieces together gives them again, and
whatever lines of that shape make up the text are these. -/
theorem logicalLines_canonical {lines : List (List Char)} (ne : lines ≠ [])
    (h : ∀ line ∈ lines, '\n' ∉ line) :
    joinLines (logicalLines lines) = joinLines lines ∧ AreLogical (logicalLines lines) ∧
      logicalLines (splitLines (joinLines (logicalLines lines))) = logicalLines lines ∧
      ∀ merged, merged ≠ [] → joinLines merged = joinLines lines → AreLogical merged →
        merged = logicalLines lines := by
  have hshape : AreLogical (logicalLines lines) :=
    areLogical_logicalLines fun line hline => unbroken_of_not_mem (h line hline)
  have hagain : linesOf (joinLines lines) = logicalLines lines := by
    rw [linesOf, splitLines_joinLines h ne]
  refine ⟨joinLines_logicalLines lines, hshape, hshape.linesOf_eq (logicalLines_ne_nil ne), ?_⟩
  intro merged hne htext hmerged
  rw [← hagain, ← htext, hmerged.linesOf_eq hne]

/-- An empty line behind a continued one, a line that is a backslash alone, and a backslash at the
end. -/
theorem logicalLines_canonical_trailing :
    logicalLines ["a\\".toList, [], ['\\'], ['b'], "c\\".toList] =
        ["a\\\n".toList, "\\\nb".toList, "c\\".toList] ∧
      AreLogical ["a\\\n".toList, "\\\nb".toList, "c\\".toList] ∧
      linesOf "a\\\n\n\\\nb\nc\\".toList =
        ["a\\\n".toList, "\\\nb".toList, "c\\".toList] := by
  have hlines : ∀ line ∈ ["a\\".toList, [], ['\\'], ['b'], "c\\".toList], '\n' ∉ line := by decide
  have hlogical : logicalLines ["a\\".toList, [], ['\\'], ['b'], "c\\".toList] =
      ["a\\\n".toList, "\\\nb".toList, "c\\".toList] := rfl
  obtain ⟨htext, hshape, hagain, -⟩ := logicalLines_canonical (List.cons_ne_nil _ _) hlines
  rw [htext] at hagain
  rw [hlogical] at hshape hagain
  exact ⟨hlogical, hshape, hagain⟩

end CompactShell.Shell
