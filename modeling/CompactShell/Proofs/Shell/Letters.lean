import CompactShell.Proofs.Shell.Single
import CompactShell.Text.Choice

/-!
# What a shell makes of a word

A program does not get a word as it was typed. Quotes come off, and so do backslashes: all of them
outside quotes, and between double quotes those in front of a character that is special there. A
dollar sign is open to expansion unless it is escaped or stands between single quotes. `letters`
gives the characters that the shell goes on with, each with a mark if it is such a dollar sign.

The value of a word (`unquoted`) lies between the two: the quotes are off, the backslashes are not.
A value that is quoted anew stands for itself, character by character (`letters_requote`), so it
means what the word meant exactly if the word is literal, with no dollar sign open and no backslash
to come off (`letters_eq_iff_isLiteral`). And a word may become a flag though its value does not
start with a dash (`isFlag_iff`).
-/

namespace CompactShell.Shell

open Text

/-- A character that the shell goes on with. -/
structure Letter where
  char : Char
  /-- It is a dollar sign that is open to expansion. -/
  isOpen : Bool
  deriving DecidableEq, Repr

/-- A character that stands for itself. -/
def Letter.plain (c : Char) : Letter :=
  ⟨c, false⟩

/-- A backslash in front of the character comes off. -/
def comesOff (quoting : Quoting) (c : Char) : Bool :=
  quoting != .double || ['$', '\x60', '"', '\\', '\n'].contains c

/-- What is left of a character with a backslash in front of it. A newline goes with its
backslash. -/
def escapedLetters (quoting : Quoting) (c : Char) : List Letter :=
  if comesOff quoting c then if c = '\n' then [] else [.plain c]
  else [.plain '\\', .plain c]

/-- What the shell makes of the text from the state `s` on. A backslash that still waits for its
character at the end stays. -/
def lettersFrom (s : Scan) : List Char → List Letter
  | [] => if s.escaped then [.plain '\\'] else []
  | c :: rest =>
    if s.escaped then escapedLetters s.quoting c ++ lettersFrom (s.next c) rest
    else if s.isEscape c || s.isToggle c then lettersFrom (s.next c) rest
    else ⟨c, c = '$' && s.quoting != .single⟩ :: lettersFrom (s.next c) rest

/-- What the shell makes of a word. -/
def letters (raw : List Char) : List Letter :=
  lettersFrom .start raw

example : letters "\\$a\"\\b$c\"".toList =
    [.plain '$', .plain 'a', .plain '\\', .plain 'b', ⟨'$', true⟩, .plain 'c'] := by
  decide

/-- Nothing but quotes comes off the text, and no dollar sign in it is open. -/
def isLiteral (s : Scan) : List Char → Bool
  | [] => true
  | c :: rest =>
    (if s.escaped then !comesOff s.quoting c else c != '$' || s.quoting == .single) &&
      isLiteral (s.next c) rest

/-! ## One character more -/

theorem next_of_escaped {s : Scan} (h : s.escaped = true) (c : Char) :
    s.next c = ⟨s.quoting, false⟩ := by
  simp [Scan.next, Scan.isEscape, Scan.isToggle, h]

theorem not_isToggle_of_escaped {s : Scan} (h : s.escaped = true) (c : Char) :
    ¬ s.isToggle c = true := by
  simp [Scan.isToggle, h]

/-- How a character is read: it is a backslash that escapes the next one, a quote that opens or
closes, or it leaves the quotes as they are. -/
theorem step_cases (s : Scan) (c : Char) :
    (c = '\\' ∧ s.isEscape c = true ∧ ¬ s.isToggle c = true ∧ s.next c = ⟨s.quoting, true⟩) ∨
      ((c = '\'' ∨ c = '"') ∧ ¬ s.isEscape c = true ∧ s.isToggle c = true ∧
        (s.next c).escaped = false) ∨
      (¬ s.isEscape c = true ∧ ¬ s.isToggle c = true ∧ s.next c = ⟨s.quoting, false⟩) := by
  by_cases he : s.isEscape c = true
  · have hc : c = '\\' := by
      simp only [Scan.isEscape, Bool.and_eq_true, decide_eq_true_eq] at he
      exact he.1.2
    refine .inl ⟨hc, he, ?_, by rw [Scan.next, if_pos he]⟩
    simp [Scan.isToggle, hc]
  · by_cases ht : s.isToggle c = true
    · have hc : c = '\'' ∨ c = '"' := by
        simp only [Scan.isToggle, Bool.and_eq_true, Bool.or_eq_true, decide_eq_true_eq] at ht
        exact ht.2.imp And.left And.left
      exact .inr (.inl ⟨hc, he, ht, by rw [Scan.next, if_neg he, if_pos ht]⟩)
    · exact .inr (.inr ⟨he, ht, by rw [Scan.next, if_neg he, if_neg ht]⟩)

theorem lettersFrom_of_escaped {s : Scan} (h : s.escaped = true) (c : Char) (rest : List Char) :
    lettersFrom s (c :: rest) =
      escapedLetters s.quoting c ++ lettersFrom ⟨s.quoting, false⟩ rest := by
  rw [lettersFrom, if_pos h, next_of_escaped h]

theorem lettersFrom_of_skipped {s : Scan} (h : s.escaped = false) {c : Char}
    (hc : s.isEscape c = true ∨ s.isToggle c = true) (rest : List Char) :
    lettersFrom s (c :: rest) = lettersFrom (s.next c) rest := by
  rw [lettersFrom, h, if_neg Bool.false_ne_true, if_pos (by rwa [Bool.or_eq_true])]

theorem lettersFrom_of_kept {s : Scan} (h : s.escaped = false) {c : Char}
    (he : ¬ s.isEscape c = true) (ht : ¬ s.isToggle c = true) (rest : List Char) :
    lettersFrom s (c :: rest) =
      ⟨c, c = '$' && s.quoting != .single⟩ :: lettersFrom (s.next c) rest := by
  rw [lettersFrom, h, if_neg Bool.false_ne_true, if_neg]
  rw [Bool.or_eq_true]
  rintro (hc | hc)
  · exact he hc
  · exact ht hc

theorem unquoted_of_isToggle {s : Scan} {c : Char} (h : s.isToggle c = true) (rest : List Char) :
    unquoted s (c :: rest) = unquoted (s.next c) rest := by
  rw [unquoted, if_pos h]

theorem unquoted_of_not_isToggle {s : Scan} {c : Char} (h : ¬ s.isToggle c = true)
    (rest : List Char) : unquoted s (c :: rest) = c :: unquoted (s.next c) rest := by
  rw [unquoted, if_neg h]

/-! ## Literal words -/

/-- The backslash that waits for its character. -/
def pending (s : Scan) : List Char :=
  if s.escaped then ['\\'] else []

theorem pending_of_escaped {s : Scan} (h : s.escaped = true) : pending s = ['\\'] := by
  rw [pending, if_pos h]

theorem pending_of_not_escaped {s : Scan} (h : s.escaped = false) : pending s = [] := by
  rw [pending, h, if_neg Bool.false_ne_true]

/-- The shell adds nothing to the value of a word. -/
theorem length_lettersFrom_le (s : Scan) (text : List Char) :
    (lettersFrom s text).length ≤ (pending s).length + (unquoted s text).length := by
  induction text generalizing s with
  | nil =>
    rw [lettersFrom, pending]
    split
    · exact Nat.le_refl _
    · exact Nat.le_refl _
  | cons c rest ih =>
    cases h : s.escaped with
    | true =>
      have hkept : (escapedLetters s.quoting c).length ≤ 2 := by
        rw [escapedLetters]
        split
        · split
          · exact Nat.zero_le _
          · exact Nat.le_succ _
        · exact Nat.le_refl _
      have hrest := ih ⟨s.quoting, false⟩
      rw [pending_of_not_escaped rfl, List.length_nil] at hrest
      rw [lettersFrom_of_escaped h, unquoted_of_not_isToggle (not_isToggle_of_escaped h c),
        pending_of_escaped h, next_of_escaped h, List.length_append, List.length_singleton,
        List.length_cons]
      omega
    | false =>
      have hrest := ih (s.next c)
      rw [pending_of_not_escaped h, List.length_nil]
      rcases step_cases s c with ⟨-, he, ht, hnext⟩ | ⟨-, -, ht, hnext⟩ | ⟨he, ht, hnext⟩
      · rw [lettersFrom_of_skipped h (.inl he), unquoted_of_not_isToggle ht, List.length_cons]
        rw [pending_of_escaped (by rw [hnext]), List.length_singleton] at hrest
        omega
      · rw [lettersFrom_of_skipped h (.inr ht), unquoted_of_isToggle ht]
        rwa [pending_of_not_escaped hnext, List.length_nil] at hrest
      · rw [lettersFrom_of_kept h he ht, unquoted_of_not_isToggle ht, List.length_cons,
          List.length_cons]
        rw [pending_of_not_escaped (by rw [hnext]), List.length_nil] at hrest
        omega

theorem lettersFrom_eq_iff (s : Scan) (text : List Char) :
    lettersFrom s text = (pending s ++ unquoted s text).map Letter.plain ↔
      isLiteral s text = true := by
  induction text generalizing s with
  | nil =>
    rw [lettersFrom, pending]
    split
    · exact iff_of_true rfl rfl
    · exact iff_of_true rfl rfl
  | cons c rest ih =>
    rw [isLiteral, Bool.and_eq_true, ← ih]
    cases h : s.escaped with
    | true =>
      rw [if_pos rfl, lettersFrom_of_escaped h,
        unquoted_of_not_isToggle (not_isToggle_of_escaped h c), pending_of_escaped h,
        next_of_escaped h, pending_of_not_escaped rfl, List.nil_append, escapedLetters]
      by_cases hoff : comesOff s.quoting c = true
      · -- with the backslash gone there are fewer characters than in the value
        refine iff_of_false (fun heq => ?_) (by simp [hoff])
        have hlength := congrArg List.length heq
        have hrest := length_lettersFrom_le ⟨s.quoting, false⟩ rest
        rw [pending_of_not_escaped rfl, List.length_nil] at hrest
        have hleft : (if c = '\n' then [] else [Letter.plain c]).length ≤ 1 := by
          split
          · exact Nat.zero_le _
          · exact Nat.le_refl _
        rw [if_pos hoff, List.length_append, List.length_map, List.length_append,
          List.length_singleton, List.length_cons] at hlength
        omega
      · rw [if_neg hoff]
        simp [hoff]
    | false =>
      rw [if_neg Bool.false_ne_true, pending_of_not_escaped h, List.nil_append]
      rcases step_cases s c with ⟨rfl, he, ht, hnext⟩ | ⟨hc, -, ht, hnext⟩ | ⟨he, ht, hnext⟩
      · rw [lettersFrom_of_skipped h (.inl he), unquoted_of_not_isToggle ht,
          pending_of_escaped (by rw [hnext])]
        simp
      · have hne : c ≠ '$' := by
          rcases hc with rfl | rfl
          · decide
          · decide
        rw [lettersFrom_of_skipped h (.inr ht), unquoted_of_isToggle ht,
          pending_of_not_escaped hnext]
        simp [hne]
      · rw [lettersFrom_of_kept h he ht, unquoted_of_not_isToggle ht,
          pending_of_not_escaped (by rw [hnext]), List.map_cons, List.cons.injEq]
        refine and_congr ?_ Iff.rfl
        by_cases hc : c = '$'
        · subst hc
          cases s.quoting <;> decide
        · simp [Letter.plain, hc]

/-- **A word stands for its value exactly if it is literal.** -/
theorem letters_eq_iff_isLiteral (raw : List Char) :
    letters raw = (unquoted .start raw).map Letter.plain ↔ isLiteral .start raw = true :=
  lettersFrom_eq_iff .start raw

/-! ## Plain fronts -/

/-- A plain front of a value stands for itself, wherever the quotes are. -/
theorem exists_lettersFrom_eq_append {s : Scan} (hs : s.escaped = false) {raw lead rest : List Char}
    (hlead : PlainText lead) (h : unquoted s raw = lead ++ rest) :
    ∃ behind, lettersFrom s raw = lead.map Letter.plain ++ behind := by
  induction raw generalizing s lead with
  | nil =>
    obtain ⟨rfl, -⟩ := List.append_eq_nil_iff.1 h.symm
    exact ⟨_, rfl⟩
  | cons c raw ih =>
    cases lead with
    | nil => exact ⟨_, rfl⟩
    | cons d lead =>
      have hd := hlead
      rw [PlainText, List.forall_mem_cons] at hd
      rcases step_cases s c with ⟨rfl, -, ht, -⟩ | ⟨-, -, ht, hnext⟩ | ⟨he, ht, hnext⟩
      · rw [unquoted_of_not_isToggle ht, List.cons_append, List.cons.injEq] at h
        exact absurd h.1.symm (ne_of_isPlain hd.1 (by decide))
      · rw [unquoted_of_isToggle ht] at h
        rw [lettersFrom_of_skipped hs (.inr ht)]
        exact ih hnext hlead h
      · rw [unquoted_of_not_isToggle ht, List.cons_append, List.cons.injEq] at h
        obtain ⟨rfl, h⟩ := h
        obtain ⟨behind, hbehind⟩ := ih (by rw [hnext]) hd.2 h
        have hdollar : c ≠ '$' := ne_of_isPlain hd.1 (by decide)
        refine ⟨behind, ?_⟩
        rw [lettersFrom_of_kept hs he ht, hbehind, List.map_cons, List.cons_append]
        simp [Letter.plain, hdollar]

theorem letters_plainText_append {lead : List Char} (hlead : PlainText lead) (text : List Char) :
    letters (lead ++ text) = lead.map Letter.plain ++ letters text := by
  rw [letters]
  induction lead with
  | nil => rfl
  | cons c lead ih =>
    rw [PlainText, List.forall_mem_cons] at hlead
    have hbackslash : c ≠ '\\' := ne_of_isPlain hlead.1 (by decide)
    have hsingle : c ≠ '\'' := ne_of_isPlain hlead.1 (by decide)
    have hdouble : c ≠ '"' := ne_of_isPlain hlead.1 (by decide)
    have hdollar : c ≠ '$' := ne_of_isPlain hlead.1 (by decide)
    rw [List.cons_append, lettersFrom_of_kept rfl (by simp [Scan.isEscape, hbackslash])
      (by simp [Scan.isToggle, hsingle, hdouble]), Scan.next_of_isPlain _ hlead.1]
    refine List.cons_eq_cons.2 ⟨?_, ih hlead.2⟩
    simp [Letter.plain, hdollar]

/-! ## Quoting anew -/

theorem lettersFrom_inSingleQuotes (c : Char) (rest : List Char) :
    lettersFrom ⟨.single, false⟩ (inSingleQuotes c ++ rest) =
      .plain c :: lettersFrom ⟨.single, false⟩ rest := by
  rw [inSingleQuotes]
  split
  · rename_i hc
    subst hc
    rfl
  · rename_i hc
    simp [lettersFrom, Scan.next, Scan.isEscape, Scan.isToggle, Letter.plain, hc]

/-- **A text that is quoted anew stands for itself**, character by character. -/
theorem letters_requote (text : List Char) : letters (requote text) = text.map Letter.plain := by
  rcases harmless_or_quoted text with ⟨hsame, -, hall⟩ | hquoted
  · have happend := letters_plainText_append (fun c hc => isPlain_of_isHarmless (hall c hc)) []
    rw [List.append_nil] at happend
    rw [hsame, happend]
    exact List.append_nil _
  · have hopen : lettersFrom .start ('\'' :: (text.flatMap inSingleQuotes ++ ['\''])) =
        lettersFrom ⟨.single, false⟩ (text.flatMap inSingleQuotes ++ ['\'']) := rfl
    rw [hquoted, letters, hopen]
    clear hquoted hopen
    induction text with
    | nil => rfl
    | cons c text ih =>
      rw [List.flatMap_cons, List.append_assoc, lettersFrom_inSingleQuotes, ih, List.map_cons]

/-- **Part of a value quoted anew.** Behind a plain front the rest of a value, quoted anew, stands
for what it stood for in its word, exactly if the word is literal. -/
theorem letters_requote_eq_drop_iff {raw lead rest : List Char} (hlead : PlainText lead)
    (h : unquoted .start raw = lead ++ rest) :
    letters (requote rest) = (letters raw).drop lead.length ↔ isLiteral .start raw = true := by
  obtain ⟨behind, hbehind⟩ := exists_lettersFrom_eq_append rfl hlead h
  rw [← letters_eq_iff_isLiteral, h, letters_requote, letters, hbehind, List.map_append,
    List.append_cancel_left_eq, List.drop_left' (List.length_map Letter.plain)]
  exact eq_comm

/-! ## Flags -/

/-- What the shell makes of the word starts with a dash. -/
def isFlag (raw : List Char) : Bool :=
  (letters raw).head?.map Letter.char == some '-'

/-- Nothing but quotes and backslashes that come off, and newlines that go with theirs, stands in
front of a dash. One of them is a backslash, or one has been `seen` before. -/
def hidesDashFrom (s : Scan) (seen : Bool) : List Char → Bool
  | [] => false
  | c :: rest =>
    if s.isEscape c then hidesDashFrom (s.next c) true rest
    else if s.isToggle c then hidesDashFrom (s.next c) seen rest
    else if s.escaped && !comesOff s.quoting c then false
    else if s.escaped && c = '\n' then hidesDashFrom (s.next c) seen rest
    else c = '-' && seen

/-- The word has a backslash that comes off in front of a dash. -/
def hidesDash (raw : List Char) : Bool :=
  hidesDashFrom .start false raw

example : (["\\-v", "\"-v\"", "-v", "\"\\-v\""].map fun raw =>
    (isFlag raw.toList, hidesDash raw.toList)) =
    [(true, true), (true, false), (true, false), (false, false)] := by
  decide

theorem lettersFrom_of_unquoted_eq_nil {s : Scan} (hs : s.escaped = false) {raw : List Char}
    (h : unquoted s raw = []) : lettersFrom s raw = [] := by
  have hlength := length_lettersFrom_le s raw
  rw [pending_of_not_escaped hs, h] at hlength
  exact List.eq_nil_of_length_eq_zero (Nat.le_zero.1 hlength)

/-- What a value starts with stands for itself, unless it is a backslash. -/
theorem head?_lettersFrom {s : Scan} (hs : s.escaped = false) {raw rest : List Char} {c : Char}
    (h : unquoted s raw = c :: rest) (hc : c ≠ '\\') :
    (lettersFrom s raw).head?.map Letter.char = some c := by
  induction raw generalizing s with
  | nil => cases h
  | cons d raw ih =>
    rcases step_cases s d with ⟨rfl, -, ht, -⟩ | ⟨-, -, ht, hnext⟩ | ⟨he, ht, -⟩
    · rw [unquoted_of_not_isToggle ht, List.cons.injEq] at h
      exact absurd h.1.symm hc
    · rw [unquoted_of_isToggle ht] at h
      rw [lettersFrom_of_skipped hs (.inr ht)]
      exact ih hnext h
    · rw [unquoted_of_not_isToggle ht, List.cons.injEq] at h
      rw [lettersFrom_of_kept hs he ht, ← h.1]
      rfl

theorem hidesDashFrom_eq {s : Scan} {seen : Bool} (h : s.escaped = true → seen = true)
    (raw : List Char) :
    hidesDashFrom s seen raw = ((lettersFrom s raw).head?.map Letter.char == some '-' &&
      (seen || startsWith "\\" (unquoted s raw))) := by
  induction raw generalizing s seen with
  | nil =>
    rw [hidesDashFrom, lettersFrom]
    split
    · rfl
    · rfl
  | cons c raw ih =>
    cases hs : s.escaped with
    | true =>
      have he : ¬ s.isEscape c = true := by simp [Scan.isEscape, hs]
      obtain rfl := h hs
      rw [hidesDashFrom, if_neg he, if_neg (not_isToggle_of_escaped hs c), hs, Bool.true_and,
        Bool.true_and, lettersFrom_of_escaped hs, escapedLetters, next_of_escaped hs,
        Bool.true_or, Bool.and_true, Bool.and_true]
      by_cases hoff : comesOff s.quoting c = true
      · by_cases hc : c = '\n'
        · have hrest := @ih ⟨s.quoting, false⟩ true fun _ => rfl
          rw [Bool.true_or, Bool.and_true] at hrest
          subst hc
          simp [hoff, hrest]
        · simp [hoff, hc, Letter.plain, beq_eq_decide]
      · simp [hoff, Letter.plain]
    | false =>
      rcases step_cases s c with ⟨rfl, he, ht, -⟩ | ⟨-, he, ht, hnext⟩ | ⟨he, ht, -⟩
      · rw [hidesDashFrom, if_pos he, ih fun _ => rfl, lettersFrom_of_skipped hs (.inl he),
          unquoted_of_not_isToggle ht]
        simp [startsWith]
      · rw [hidesDashFrom, if_neg he, if_pos ht, lettersFrom_of_skipped hs (.inr ht),
          unquoted_of_isToggle ht]
        exact ih fun hescaped => absurd (hnext.symm.trans hescaped) Bool.false_ne_true
      · rw [hidesDashFrom, if_neg he, if_neg ht, hs, lettersFrom_of_kept hs he ht,
          unquoted_of_not_isToggle ht]
        by_cases hc : c = '-'
        · simp [hc, startsWith]
        · simp [hc]

/-- The dash of a word is hidden if its value starts with a backslash. -/
theorem hidesDash_iff (raw : List Char) :
    hidesDash raw = true ↔
      startsWith "\\" (unquoted .start raw) = true ∧ isFlag raw = true := by
  rw [hidesDash, hidesDashFrom_eq fun h => absurd h Bool.false_ne_true, Bool.false_or,
    Bool.and_eq_true, and_comm]
  rfl

/-- **When a word is a flag**: its value starts with a dash, or it hides one. -/
theorem isFlag_iff (raw : List Char) :
    isFlag raw = true ↔ startsWith "-" (unquoted .start raw) = true ∨ hidesDash raw = true := by
  rw [hidesDash_iff]
  cases h : unquoted .start raw with
  | nil =>
    have hno : isFlag raw = false := by
      rw [isFlag, letters, lettersFrom_of_unquoted_eq_nil rfl h]
      rfl
    simp [hno, startsWith]
  | cons c rest =>
    by_cases hc : c = '\\'
    · subst hc
      simp [startsWith]
    · have hhead : isFlag raw = true ↔ c = '-' := by
        rw [isFlag, letters, head?_lettersFrom rfl h hc, beq_iff_eq, Option.some.injEq]
      have hdash : startsWith "-" (c :: rest) = true ↔ c = '-' := by
        rw [startsWith_iff]
        constructor
        · rintro ⟨more, hmore⟩
          exact (List.cons.inj hmore).1
        · rintro rfl
          exact ⟨rest, rfl⟩
      rw [hhead, hdash]
      exact ⟨.inl, fun h => h.elim id And.right⟩

end CompactShell.Shell
