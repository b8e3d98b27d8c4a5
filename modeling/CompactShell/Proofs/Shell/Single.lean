import CompactShell.Proofs.Shell.Gaps

/-!
# Texts that are one word

A text is one word of a command if nothing in it separates words, its quotes are closed and no
backslash is left over at its end (`IsWord`). Such texts can be put together with blanks between
them, and the words of the result are the texts (`words_joinBlank`); a text that is empty leaves no
word behind.

There are three sources of such texts: the words of a command that is whole itself
(`isWord_of_mem_words`), what stands behind a plain front of a word (`IsWord.behind`), and any text
at all once it is quoted anew (`isWord_requote`), with the text as its value (`unquoted_requote`).
What the first two have at the end of a command that is not whole is still read as a single word
(`words_behind`).
-/

namespace CompactShell.Shell

open Text

/-- Nothing in the text separates words when it is read from the state `s`. -/
def isGapless (s : Scan) : List Char → Bool
  | [] => true
  | c :: rest => !s.separates c rest && isGapless (s.next c) rest

/-- The text is one word, whatever stands behind a blank at its end. -/
structure IsWord (text : List Char) : Prop where
  ne_nil : text ≠ []
  gapless : isGapless .start text = true
  whole : IsWhole text

instance (text : List Char) : Decidable (IsWord text) :=
  decidable_of_iff (text ≠ [] ∧ isGapless .start text = true ∧ IsWhole text)
    ⟨fun h => ⟨h.1, h.2.1, h.2.2⟩, fun h => ⟨h.1, h.2, h.3⟩⟩

/-- The word that a text is. -/
def Word.ofText (text : List Char) : Word :=
  ⟨text, unquoted .start text⟩

/-! ## Words put together -/

/-- A text without gaps is a single piece. -/
theorem pieces_of_isGapless {s : Scan} {text : List Char} (h : isGapless s text = true) :
    pieces s text = (⟨text, unquoted s text⟩, []) := by
  induction text generalizing s with
  | nil => rfl
  | cons c text ih =>
    rw [isGapless, Bool.and_eq_true, Bool.not_eq_true'] at h
    have hsep : ¬ s.separates c text = true := by simp [h.1]
    rw [unquoted]
    by_cases htoggle : s.isToggle c = true
    · rw [pieces_of_isToggle hsep htoggle, ih h.2, if_pos htoggle]
    · rw [pieces_of_not_isToggle hsep htoggle, ih h.2, if_neg htoggle]

theorem flush_of_ne_nil {piece : Word} (h : piece.raw ≠ []) (ws : List Word) :
    flush piece ws = piece :: ws := by
  rw [flush, List.isEmpty_eq_false_iff.2 h, if_neg Bool.false_ne_true]

/-- A command that starts with a piece of a word starts with that word. -/
theorem words_of_piece {text : List Char} (h : (pieces .start text).1.raw ≠ []) :
    words text = (pieces .start text).1 :: (pieces .start text).2 := by
  rw [words_eq_flush, flush_of_ne_nil h]

/-- A text without gaps is a single word, even if a quote stays open at its end. -/
theorem words_of_isGapless {text : List Char} (hne : text ≠ [])
    (h : isGapless .start text = true) : words text = [Word.ofText text] := by
  rw [words_eq_flush, pieces_of_isGapless h]
  exact flush_of_ne_nil hne _

theorem IsWord.words_eq {text : List Char} (h : IsWord text) :
    words text = [Word.ofText text] :=
  words_of_isGapless h.ne_nil h.gapless

theorem IsWord.words_append_blank {text : List Char} (h : IsWord text) (rest : List Char) :
    words (text ++ ' ' :: rest) = Word.ofText text :: words rest := by
  rw [Shell.words_append_blank h.whole, h.words_eq]
  rfl

/-- **The words of texts with blanks between them.** Each text is a word of the whole, unless it is
empty. -/
theorem words_joinBlank {texts : List (List Char)} (h : ∀ t ∈ texts, t ≠ [] → IsWord t) :
    words (joinBlank texts) = (texts.filter (· ≠ [])).map Word.ofText := by
  induction texts with
  | nil => rfl
  | cons t texts ih =>
    rw [List.forall_mem_cons] at h
    have hrest := ih h.2
    cases texts with
    | nil =>
      rw [joinBlank_singleton]
      by_cases ht : t = []
      · rw [ht]
        rfl
      · rw [(h.1 ht).words_eq]
        simp [ht]
    | cons u texts =>
      rw [joinBlank_cons_cons]
      by_cases ht : t = []
      · rw [ht, List.nil_append, words_cons_blank rfl]
        exact hrest
      · rw [(h.1 ht).words_append_blank, hrest]
        simp [List.filter_cons, ht]

theorem words_joinBlank_of_isWord {texts : List (List Char)} (h : ∀ t ∈ texts, IsWord t) :
    words (joinBlank texts) = texts.map Word.ofText := by
  rw [words_joinBlank fun t ht _ => h t ht, List.filter_eq_self.2]
  exact fun t ht => decide_eq_true (h t ht).ne_nil

/-! ## The words of a command -/

theorem isGapless_piece (s : Scan) (text : List Char) :
    isGapless s (pieces s text).1.raw = true := by
  induction text generalizing s with
  | nil => rfl
  | cons c rest ih =>
    by_cases hsep : s.separates c rest = true
    · rw [pieces_of_separates hsep]
      rfl
    · rw [(raw_pieces_of_not_separates hsep).1, isGapless, ih, Bool.and_true, Bool.not_eq_true']
      -- the word goes on with what the text goes on with, or ends here
      obtain ⟨after, hrest, -⟩ := exists_after_piece (s.next c) rest
      by_contra hgap
      rw [Bool.not_eq_false] at hgap
      refine hsep ?_
      cases hraw : (pieces (s.next c) rest).1.raw with
      | nil =>
        rw [hraw] at hgap
        simp only [Scan.separates, Bool.and_eq_true] at hgap ⊢
        refine ⟨hgap.1, ?_⟩
        by_cases he : s.escaped = true
        · simpa [he] using hgap.2
        · have hblank : isBlank c = true := by simpa [he] using hgap.2
          simp [he, hblank]
      | cons d raw =>
        rw [hraw] at hgap hrest
        rw [hrest]
        exact hgap

/-- Where a separator stands behind a word, no backslash of the word takes it away. -/
theorem escaped_after_piece {s : Scan} {text after : List Char}
    (hne : (pieces s text).1.raw ≠ []) (hafter : after ≠ [])
    (htext : text = (pieces s text).1.raw ++ after) :
    (s.after (pieces s text).1.raw).escaped = false := by
  induction text generalizing s with
  | nil => exact absurd rfl hne
  | cons c rest ih =>
    by_cases hsep : s.separates c rest = true
    · rw [pieces_of_separates hsep] at hne
      exact absurd rfl hne
    · rw [(raw_pieces_of_not_separates hsep).1] at htext ⊢
      have hrest : rest = (pieces (s.next c) rest).1.raw ++ after := (List.cons.inj htext).2
      by_cases hraw : (pieces (s.next c) rest).1.raw = []
      · -- the word ends with this character, so it is no backslash in front of a newline
        rw [hraw, Scan.after_cons, Scan.after_nil]
        by_contra he
        rw [Bool.not_eq_false] at he
        rw [hraw, List.nil_append] at hrest
        have hescape : s.isEscape c = true := by
          by_contra hno
          rw [Scan.next, if_neg hno] at he
          split at he
          · exact Bool.false_ne_true he
          · exact Bool.false_ne_true he
        obtain ⟨d, more, rfl⟩ := List.exists_cons_of_ne_nil (hrest ▸ hafter)
        have hnext : (s.next c).separates d more = true := by
          by_contra hno
          rw [(raw_pieces_of_not_separates hno).1] at hraw
          exact absurd hraw (List.cons_ne_nil _ _)
        refine hsep ?_
        rw [Scan.next, if_pos hescape] at hnext
        simp only [Scan.isEscape, Bool.and_eq_true, Bool.not_eq_true', decide_eq_true_eq] at hescape
        obtain ⟨⟨hs, rfl⟩, -⟩ := hescape
        simp only [Scan.separates, if_true, Bool.and_eq_true, decide_eq_true_eq] at hnext
        obtain ⟨hq, rfl⟩ := hnext
        simp [Scan.separates, hq, hs]
      · exact ih hraw hrest

/-- **A word with a separator behind it is finished.** -/
theorem isWhole_piece {text more : List Char} {d : Char}
    (hne : (pieces .start text).1.raw ≠ []) (htext : text = (pieces .start text).1.raw ++ d :: more)
    (hsep : (Scan.start.after (pieces .start text).1.raw).separates d more = true) :
    IsWhole (pieces .start text).1.raw :=
  Scan.eq_start (separates_cases hsep).1 (escaped_after_piece hne (List.cons_ne_nil d more) htext)

/-- Every word but the first is the piece that some later part of the text starts with. -/
theorem exists_piece_of_mem_pieces {s : Scan} {text : List Char} {w : Word}
    (hw : w ∈ (pieces s text).2) :
    ∃ before rest, text = before ++ rest ∧ s.after before = .start ∧
      w = (pieces .start rest).1 := by
  induction text generalizing s with
  | nil => exact absurd hw List.not_mem_nil
  | cons c rest ih =>
    have hlater : w ∈ (pieces (s.next c) rest).2 → ∃ before more, c :: rest = before ++ more ∧
        s.after before = .start ∧ w = (pieces .start more).1 := by
      intro hw
      obtain ⟨before, more, rfl, hstart, hpiece⟩ := ih hw
      exact ⟨c :: before, more, rfl, hstart, hpiece⟩
    by_cases hsep : s.separates c rest = true
    · rw [pieces_of_separates hsep] at hw
      dsimp only at hw
      rw [flush] at hw
      split at hw
      · exact hlater hw
      · rename_i hne
        rcases List.mem_cons.1 hw with rfl | hw
        · rcases (separates_cases hsep).2 with ⟨hs, -⟩ | ⟨hs, -, hn⟩
          · exact ⟨[c], rest, rfl, hs, by rw [hs]⟩
          · rw [hs, raw_pieces_newline hn] at hne
            exact absurd rfl hne
        · exact hlater hw
    · rw [(raw_pieces_of_not_separates hsep).2] at hw
      exact hlater hw

theorem exists_piece_of_mem_words {command : List Char} {w : Word} (hw : w ∈ words command) :
    ∃ before rest, command = before ++ rest ∧ Scan.start.after before = .start ∧
      w = (pieces .start rest).1 ∧ w.raw ≠ [] := by
  have hne : w.raw ≠ [] := raw_ne_nil_of_mem_words hw
  rw [words_eq_flush, flush] at hw
  split at hw
  · obtain ⟨before, rest, hsplit, hstart, hpiece⟩ := exists_piece_of_mem_pieces hw
    exact ⟨before, rest, hsplit, hstart, hpiece, hne⟩
  · rcases List.mem_cons.1 hw with rfl | hw
    · exact ⟨[], command, rfl, rfl, rfl, hne⟩
    · obtain ⟨before, rest, hsplit, hstart, hpiece⟩ := exists_piece_of_mem_pieces hw
      exact ⟨before, rest, hsplit, hstart, hpiece, hne⟩

/-- A word of a command is the word that its raw text is. -/
theorem ofText_raw_of_mem_words {command : List Char} {w : Word} (hw : w ∈ words command) :
    Word.ofText w.raw = w := by
  obtain ⟨-, rest, -, -, rfl, -⟩ := exists_piece_of_mem_words hw
  rw [Word.ofText, ← value_piece]

theorem isGapless_of_mem_words {command : List Char} {w : Word} (hw : w ∈ words command) :
    isGapless .start w.raw = true := by
  obtain ⟨-, rest, -, -, rfl, -⟩ := exists_piece_of_mem_words hw
  exact isGapless_piece _ _

/-- **The words of a whole command are words by themselves.** -/
theorem isWord_of_mem_words {command : List Char} (hcommand : IsWhole command) {w : Word}
    (hw : w ∈ words command) : IsWord w.raw := by
  obtain ⟨before, rest, rfl, hstart, rfl, hne⟩ := exists_piece_of_mem_words hw
  refine ⟨hne, isGapless_piece _ _, ?_⟩
  obtain ⟨after, hrest, hends⟩ := exists_after_piece .start rest
  rcases hends with rfl | ⟨d, more, rfl, hsep⟩
  · rw [List.append_nil] at hrest
    rw [IsWhole, Scan.after_append, hstart] at hcommand
    rw [IsWhole, ← hrest]
    exact hcommand
  · exact isWhole_piece hne hrest hsep

/-! ## Behind a plain front -/

theorem isGapless_append {s : Scan} {a b : List Char} (h : isGapless s (a ++ b) = true) :
    isGapless (s.after a) b = true := by
  induction a generalizing s with
  | nil => exact h
  | cons c a ih =>
    rw [List.cons_append, isGapless, Bool.and_eq_true] at h
    exact ih h.2

theorem IsWord.behind {lead text : List Char} (hlead : PlainText lead) (h : IsWord (lead ++ text))
    (hne : text ≠ []) : IsWord text := by
  have hstart := Scan.after_plainText hlead
  refine ⟨hne, ?_, ?_⟩
  · have hgapless := isGapless_append h.gapless
    rwa [hstart] at hgapless
  · have hwhole := h.whole
    rwa [IsWhole, Scan.after_append, hstart] at hwhole

theorem unquoted_plainText_append {lead : List Char} (hlead : PlainText lead) (text : List Char) :
    unquoted .start (lead ++ text) = lead ++ unquoted .start text := by
  induction lead with
  | nil => rfl
  | cons c lead ih =>
    rw [PlainText, List.forall_mem_cons] at hlead
    have hsingle : c ≠ '\'' := ne_of_isPlain hlead.1 (by decide)
    have hdouble : c ≠ '"' := ne_of_isPlain hlead.1 (by decide)
    have hnext : Scan.start.next c = .start := Scan.next_of_isPlain .start hlead.1
    rw [List.cons_append, unquoted, hnext, ih hlead.2, if_neg]
    · rfl
    · simp [Scan.isToggle, hsingle, hdouble]

/-- **What a word has behind a plain front is one word**, with what is left of the value. Its quotes
may be open, as they may in the word. -/
theorem words_behind {command : List Char} {w : Word} (hw : w ∈ words command)
    {lead rest : List Char} (hlead : PlainText lead) (hraw : w.raw = lead ++ rest)
    (hne : rest ≠ []) : words rest = [⟨rest, w.value.drop lead.length⟩] := by
  have hgapless := isGapless_of_mem_words hw
  have hvalue : w.value = lead ++ unquoted .start rest := by
    rw [← ofText_raw_of_mem_words hw, Word.ofText, hraw]
    exact unquoted_plainText_append hlead rest
  rw [hraw] at hgapless
  have hbehind := isGapless_append hgapless
  rw [Scan.after_plainText hlead] at hbehind
  rw [words_of_isGapless hne hbehind, Word.ofText, hvalue, List.drop_left]

/-! ## Plain texts without blanks -/

/-- A class without the two blanks holds no blank. -/
theorem not_isBlank_of_class {p : Char → Bool} (hp : p ' ' = false ∧ p '\t' = false) {c : Char}
    (h : p c = true) : isBlank c = false := by
  by_contra hblank
  simp only [Bool.not_eq_false, isBlank, Bool.or_eq_true, decide_eq_true_eq] at hblank
  rcases hblank with rfl | rfl
  · exact Bool.false_ne_true (hp.1.symm.trans h)
  · exact Bool.false_ne_true (hp.2.symm.trans h)

/-- A plain text without blanks is one word, and its own value. -/
theorem isWord_of_plainText {text : List Char} (hne : text ≠ []) (hplain : PlainText text)
    (hblank : ∀ c ∈ text, isBlank c = false) : IsWord text := by
  refine ⟨hne, ?_, Scan.after_plainText hplain⟩
  clear hne
  induction text with
  | nil => rfl
  | cons c text ih =>
    rw [PlainText, List.forall_mem_cons] at hplain
    rw [List.forall_mem_cons] at hblank
    have hbackslash : c ≠ '\\' := ne_of_isPlain hplain.1 (by decide)
    have hnext : Scan.start.next c = .start := Scan.next_of_isPlain .start hplain.1
    rw [isGapless, hnext, ih hplain.2 hblank.2]
    simp [Scan.separates, Scan.start, hbackslash, hblank.1]

/-! ## Quoting anew -/

theorem not_isBlank_of_isHarmless {c : Char} (h : isHarmless c = true) : isBlank c = false :=
  not_isBlank_of_class (by decide) h

/-- Inside single quotes a character is written without a gap, and it is its own value. -/
theorem read_inSingleQuotes (c : Char) (rest : List Char) :
    isGapless ⟨.single, false⟩ (inSingleQuotes c ++ rest) = isGapless ⟨.single, false⟩ rest ∧
      unquoted ⟨.single, false⟩ (inSingleQuotes c ++ rest) =
        c :: unquoted ⟨.single, false⟩ rest := by
  rw [inSingleQuotes]
  split
  · rename_i hc
    subst hc
    exact ⟨rfl, rfl⟩
  · rename_i hc
    refine ⟨?_, ?_⟩
    · simp [isGapless, Scan.separates, Scan.next, Scan.isEscape, Scan.isToggle, hc]
    · simp [unquoted, Scan.next, Scan.isEscape, Scan.isToggle, hc]

theorem read_quoted (text : List Char) :
    isGapless ⟨.single, false⟩ (text.flatMap inSingleQuotes ++ ['\'']) = true ∧
      unquoted ⟨.single, false⟩ (text.flatMap inSingleQuotes ++ ['\'']) = text := by
  induction text with
  | nil => exact ⟨rfl, rfl⟩
  | cons c text ih =>
    obtain ⟨hgapless, hvalue⟩ := read_inSingleQuotes c (text.flatMap inSingleQuotes ++ ['\''])
    rw [List.flatMap_cons, List.append_assoc, hgapless, hvalue, ih.2]
    exact ⟨ih.1, rfl⟩

theorem harmless_or_quoted (text : List Char) :
    (requote text = text ∧ text ≠ [] ∧ ∀ c ∈ text, isHarmless c = true) ∨
      requote text = '\'' :: (text.flatMap inSingleQuotes ++ ['\'']) := by
  rw [requote]
  split
  · rename_i h
    simp only [Bool.and_eq_true, Bool.not_eq_true', List.isEmpty_eq_false_iff,
      List.all_eq_true] at h
    exact .inl ⟨rfl, h.1, h.2⟩
  · exact .inr rfl

/-- **A text that is quoted anew is one word.** -/
theorem isWord_requote (text : List Char) : IsWord (requote text) := by
  rcases harmless_or_quoted text with ⟨hsame, hne, hall⟩ | hquoted
  · rw [hsame]
    exact isWord_of_plainText hne (fun c hc => isPlain_of_isHarmless (hall c hc))
      fun c hc => not_isBlank_of_isHarmless (hall c hc)
  · have hopen : Scan.start.next '\'' = ⟨.single, false⟩ := rfl
    rw [hquoted]
    refine ⟨List.cons_ne_nil _ _, ?_, ?_⟩
    · rw [isGapless, hopen, (read_quoted text).1]
      rfl
    · rw [IsWhole, Scan.after_cons, hopen, Scan.after_append, (scan_quoted text).2]
      rfl

/-- **The value of a text that is quoted anew is the text.** -/
theorem unquoted_requote (text : List Char) : unquoted .start (requote text) = text := by
  rcases harmless_or_quoted text with ⟨hsame, -, hall⟩ | hquoted
  · have hplain : PlainText text := fun c hc => isPlain_of_isHarmless (hall c hc)
    have happend := unquoted_plainText_append hplain []
    rw [List.append_nil] at happend
    rw [hsame, happend, unquoted, List.append_nil]
  · rw [hquoted]
    exact (read_quoted text).2

theorem words_requote (text : List Char) : words (requote text) = [⟨requote text, text⟩] := by
  rw [(isWord_requote text).words_eq, Word.ofText, unquoted_requote]

end CompactShell.Shell
