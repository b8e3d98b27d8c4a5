import CompactShell.Proofs.Shell.Lines
import CompactShell.Proofs.Shell.Operators
import CompactShell.Shell.Requote
import CompactShell.Shell.Word

/-!
# Where words stand

`pieces` reads from any state of the scan of characters, and answers with the part of a word that
lies there and the words after it. The reader of words is another scanner, with its own steps, and
comes to the same pieces (`wordsFrom_eq_flush`).

Pieces are read from the end of a command, so they say nothing about the places they were read from.
`StandsAt` puts each word back: it is a part of the text that starts where the scan is at its start,
right behind a separator, and it ends in front of one. Its value is the word itself without the
quotes that delimit.

What a translator needs follows without another look at `pieces`: the words of an inert text are
inert (`StandsAt.inert`), and so are the same words with blanks between them (`inert_joinBlank`).
The words of an unbroken text are unbroken (`StandsAt.unbroken`). A text that is quoted anew is
inert whatever it holds (`inert_requote`), and stays unbroken if it was (`unbroken_requote`).
-/

namespace CompactShell.Shell

open Text

/-! ## Piece by piece -/

/-- The character, in front of `rest`, lies between words. -/
def Scan.separates (s : Scan) (c : Char) (rest : List Char) : Bool :=
  s.quoting == .bare &&
    if s.escaped then c = '\n'
    else isBlank c || (c = '\\' && rest.head? == some '\n')

/-- The rest of the word that the scan is in, and the words after it. -/
def pieces (s : Scan) : List Char → Word × List Word
  | [] => (⟨[], []⟩, [])
  | c :: rest =>
    let (piece, words) := pieces (s.next c) rest
    if s.separates c rest then (⟨[], []⟩, flush piece words)
    else if s.isToggle c then (⟨c :: piece.raw, piece.value⟩, words)
    else (⟨c :: piece.raw, c :: piece.value⟩, words)

theorem raw_ne_nil_of_mem_flush {piece w : Word} {ws : List Word} (h : w ∈ flush piece ws)
    (hs : ∀ w ∈ ws, w.raw ≠ []) : w.raw ≠ [] := by
  unfold flush at h
  split at h
  · exact hs w h
  · next ne =>
    rcases List.mem_cons.1 h with rfl | h
    · simpa using ne
    · exact hs w h

theorem raw_ne_nil_of_mem_pieces (s : Scan) (text : List Char) :
    ∀ w ∈ (pieces s text).2, w.raw ≠ [] := by
  induction text generalizing s with
  | nil => simp [pieces]
  | cons c rest ih =>
    intro w hw
    simp only [pieces] at hw
    by_cases hsep : s.separates c rest = true
    · simp only [hsep, if_true] at hw
      exact raw_ne_nil_of_mem_flush hw (ih _)
    · by_cases htog : s.isToggle c = true <;> simp only [hsep, htog, if_true] at hw <;>
        exact ih _ w hw

/-! ## Words in their places -/

/-- The text without the quotes that open or close when it is read from the state `s`. -/
def unquoted (s : Scan) : List Char → List Char
  | [] => []
  | c :: rest => if s.isToggle c then unquoted (s.next c) rest else c :: unquoted (s.next c) rest

/-- A word may end here: nothing follows, or a separator. -/
def Ends (s : Scan) (rest : List Char) : Prop :=
  rest = [] ∨ ∃ c more, rest = c :: more ∧ s.separates c more = true

/-- The word stands in the text right behind `before`, when the text is read from the state `s`. -/
structure StandsAt (w : Word) (s : Scan) (text before : List Char) : Prop where
  /-- The value is the word without the quotes that delimit. -/
  value_eq : w.value = unquoted .start w.raw
  /-- In front of the word the scan is at its start. -/
  start : s.after before = .start
  /-- What stands right in front of the word is a separator, if anything does. -/
  separated : ∀ c ∈ before.getLast?, isBlank c = true ∨ c = '\n'
  /-- A separator stands behind the word, or nothing. -/
  place : ∃ after, text = before ++ (w.raw ++ after) ∧ Ends (Scan.start.after w.raw) after

/-- **What separates.** A blank, or a newline behind a backslash, brings the scan back to its
start; the backslash itself stands in front of its newline. -/
theorem separates_cases {s : Scan} {c : Char} {rest : List Char} (h : s.separates c rest = true) :
    s.quoting = .bare ∧ ((s.next c = .start ∧ (isBlank c = true ∨ c = '\n')) ∨
      (s.next c = ⟨.bare, true⟩ ∧ c = '\\' ∧ rest.head? = some '\n')) := by
  obtain ⟨q, e⟩ := s
  simp only [Scan.separates, Bool.and_eq_true, beq_iff_eq] at h
  obtain ⟨rfl, h⟩ := h
  refine ⟨rfl, ?_⟩
  cases e with
  | true =>
    obtain rfl : c = '\n' := by simpa using h
    exact Or.inl ⟨rfl, Or.inr rfl⟩
  | false =>
    simp only [Bool.false_eq_true, if_false, Bool.or_eq_true, Bool.and_eq_true, decide_eq_true_eq,
      beq_iff_eq] at h
    rcases h with hb | ⟨rfl, hn⟩
    · exact Or.inl ⟨Scan.next_of_isPlain _ (isPlain_of_isBlank hb), Or.inl hb⟩
    · exact Or.inr ⟨rfl, rfl, hn⟩

/-! ## One character more -/

theorem pieces_of_separates {s : Scan} {c : Char} {rest : List Char}
    (h : s.separates c rest = true) :
    pieces s (c :: rest) =
      (⟨[], []⟩, flush (pieces (s.next c) rest).1 (pieces (s.next c) rest).2) := by
  rw [pieces]; simp only [h, if_true]

theorem pieces_of_isToggle {s : Scan} {c : Char} {rest : List Char}
    (h : ¬ s.separates c rest = true) (ht : s.isToggle c = true) :
    pieces s (c :: rest) = (⟨c :: (pieces (s.next c) rest).1.raw, (pieces (s.next c) rest).1.value⟩,
      (pieces (s.next c) rest).2) := by
  rw [pieces]; simp only [h, ht, if_true]; rfl

theorem pieces_of_not_isToggle {s : Scan} {c : Char} {rest : List Char}
    (h : ¬ s.separates c rest = true) (ht : ¬ s.isToggle c = true) :
    pieces s (c :: rest) =
      (⟨c :: (pieces (s.next c) rest).1.raw, c :: (pieces (s.next c) rest).1.value⟩,
        (pieces (s.next c) rest).2) := by
  rw [pieces]; simp only [h, ht]; rfl

/-- A character that does not separate goes in front of the word that follows it. -/
theorem raw_pieces_of_not_separates {s : Scan} {c : Char} {rest : List Char}
    (h : ¬ s.separates c rest = true) :
    (pieces s (c :: rest)).1.raw = c :: (pieces (s.next c) rest).1.raw ∧
      (pieces s (c :: rest)).2 = (pieces (s.next c) rest).2 := by
  by_cases ht : s.isToggle c = true
  · rw [pieces_of_isToggle h ht]; exact ⟨rfl, rfl⟩
  · rw [pieces_of_not_isToggle h ht]; exact ⟨rfl, rfl⟩

/-- The newline of a continuation belongs to no word. -/
theorem raw_pieces_newline {rest : List Char} (h : rest.head? = some '\n') :
    (pieces ⟨.bare, true⟩ rest).1.raw = [] := by
  obtain ⟨rest, rfl⟩ := List.head?_eq_some_iff.1 h
  rw [pieces_of_separates (by rfl)]

/-! ## The reader of words -/

/-- A continuation ends the piece in front of it. -/
theorem pieces_continuation (rest : List Char) :
    pieces .start ('\\' :: '\n' :: rest) =
      (⟨[], []⟩, flush (pieces .start rest).1 (pieces .start rest).2) := by
  have hescape : Scan.start.next '\\' = ⟨.bare, true⟩ := rfl
  have hnewline : Scan.next ⟨.bare, true⟩ '\n' = .start := rfl
  rw [pieces_of_separates rfl, hescape, pieces_of_separates rfl, hnewline]
  rfl

/-- Any other character behind a backslash is read with it. -/
theorem pieces_pair {quoting : Quoting} (hquoting : quoting ≠ .single) {d : Char}
    (hd : d = '\n' → quoting = .double) (rest : List Char) :
    pieces ⟨quoting, false⟩ ('\\' :: d :: rest) =
      (⟨'\\' :: d :: (pieces ⟨quoting, false⟩ rest).1.raw,
        '\\' :: d :: (pieces ⟨quoting, false⟩ rest).1.value⟩,
        (pieces ⟨quoting, false⟩ rest).2) := by
  have hescape : Scan.next ⟨quoting, false⟩ '\\' = ⟨quoting, true⟩ := by
    simp [Scan.next, Scan.isEscape, hquoting]
  have hescaped : Scan.next ⟨quoting, true⟩ d = ⟨quoting, false⟩ := rfl
  have hfirst : ¬ Scan.separates ⟨quoting, false⟩ '\\' (d :: rest) = true := by
    simp only [Scan.separates, Bool.and_eq_true, beq_iff_eq]
    rintro ⟨rfl, hnewline⟩
    exact absurd (hd (by simpa [isBlank] using hnewline)) (by decide)
  have hsecond : ¬ Scan.separates ⟨quoting, true⟩ d rest = true := by
    simp only [Scan.separates, Bool.and_eq_true, beq_iff_eq]
    rintro ⟨rfl, hnewline⟩
    exact absurd (hd (by simpa using hnewline)) (by decide)
  have hquote : ¬ Scan.isToggle ⟨quoting, false⟩ '\\' = true := by simp [Scan.isToggle]
  have hplain : ¬ Scan.isToggle ⟨quoting, true⟩ d = true := by simp [Scan.isToggle]
  rw [pieces_of_not_isToggle hfirst hquote, hescape, pieces_of_not_isToggle hsecond hplain,
    hescaped]

/-- A quote is read with the word and is no part of its value. -/
theorem pieces_quote {quoting : Quoting} {c : Char}
    (h : Scan.isToggle ⟨quoting, false⟩ c = true) (rest : List Char) :
    pieces ⟨quoting, false⟩ (c :: rest) =
      (⟨c :: (pieces ⟨Scan.toggle ⟨quoting, false⟩ c, false⟩ rest).1.raw,
        (pieces ⟨Scan.toggle ⟨quoting, false⟩ c, false⟩ rest).1.value⟩,
        (pieces ⟨Scan.toggle ⟨quoting, false⟩ c, false⟩ rest).2) := by
  have hc : c = '\'' ∨ c = '"' := by
    simp only [Scan.isToggle, Bool.and_eq_true, Bool.or_eq_true, decide_eq_true_eq] at h
    exact h.2.imp And.left And.left
  have hescape : Scan.isEscape ⟨quoting, false⟩ c = false := by
    rcases hc with rfl | rfl
    · rfl
    · rfl
  have hsep : ¬ Scan.separates ⟨quoting, false⟩ c rest = true := by
    rcases hc with rfl | rfl
    · simp [Scan.separates, isBlank]
    · simp [Scan.separates, isBlank]
  have hnext : Scan.next ⟨quoting, false⟩ c = ⟨Scan.toggle ⟨quoting, false⟩ c, false⟩ := by
    rw [Scan.next, hescape, if_neg Bool.false_ne_true, if_pos h]
  rw [pieces_of_isToggle hsep h, hnext]

/-- Any other character that is no gap is read with the word and is a part of its value. -/
theorem pieces_kept {quoting : Quoting} {c : Char}
    (hescape : Scan.isEscape ⟨quoting, false⟩ c = false)
    (hquote : Scan.isToggle ⟨quoting, false⟩ c = false)
    (hgap : isBlank c = true → quoting ≠ .bare) (rest : List Char) :
    pieces ⟨quoting, false⟩ (c :: rest) =
      (⟨c :: (pieces ⟨quoting, false⟩ rest).1.raw, c :: (pieces ⟨quoting, false⟩ rest).1.value⟩,
        (pieces ⟨quoting, false⟩ rest).2) := by
  have hnext : Scan.next ⟨quoting, false⟩ c = ⟨quoting, false⟩ := by
    rw [Scan.next, hescape, if_neg Bool.false_ne_true, hquote, if_neg Bool.false_ne_true]
  have hsep : ¬ Scan.separates ⟨quoting, false⟩ c rest = true := by
    simp only [Scan.separates, Bool.and_eq_true, beq_iff_eq]
    rintro ⟨rfl, hcase⟩
    rcases Bool.or_eq_true_iff.1 hcase with hblank | hnewline
    · exact hgap hblank rfl
    · have hback : c = '\\' := by simpa using (Bool.and_eq_true_iff.1 hnewline).1
      subst hback
      cases hescape
  rw [pieces_of_not_isToggle hsep (by rw [hquote]; exact Bool.false_ne_true), hnext]

/-- **The reader of words and the scan agree.** With what there is of a word already, the reader
goes on as the scan does that has the same quotes open. -/
theorem wordsFrom_eq_flush (quoting : Quoting) (raw value text : List Char) :
    wordsFrom quoting raw value text =
      flush ⟨raw.reverse ++ (pieces ⟨quoting, false⟩ text).1.raw,
        value.reverse ++ (pieces ⟨quoting, false⟩ text).1.value⟩
        (pieces ⟨quoting, false⟩ text).2 := by
  fun_induction wordsFrom quoting raw value text with
  | case1 quoting raw value =>
    rw [pieces, List.append_nil, List.append_nil]
  | case2 quoting raw value c hescape =>
    -- a backslash at the end has nothing to escape
    obtain ⟨rfl, -⟩ : c = '\\' ∧ quoting ≠ .single := by simpa using hescape
    have hpiece : pieces ⟨quoting, false⟩ ['\\'] = (⟨['\\'], ['\\']⟩, []) := by
      simp [pieces, Scan.separates, Scan.isToggle, isBlank]
    rw [hpiece, List.reverse_cons, List.reverse_cons]
  | case3 quoting raw value c d rest hescape hnewline ih =>
    obtain ⟨rfl, hsingle⟩ : c = '\\' ∧ quoting ≠ .single := by simpa using hescape
    obtain ⟨rfl, hdouble⟩ : d = '\n' ∧ quoting ≠ .double := by simpa using hnewline
    obtain rfl : quoting = .bare := by
      cases quoting with
      | bare => rfl
      | single => exact absurd rfl hsingle
      | double => exact absurd rfl hdouble
    have hpieces := pieces_continuation rest
    rw [Scan.start] at hpieces
    rw [ih, hpieces, List.append_nil, List.append_nil]
    rfl
  | case4 quoting raw value c d rest hescape hkept ih =>
    obtain ⟨rfl, hsingle⟩ : c = '\\' ∧ quoting ≠ .single := by simpa using hescape
    have hd : d = '\n' → quoting = .double := by simpa using hkept
    rw [ih, pieces_pair hsingle hd]
    simp only [List.reverse_cons, List.append_assoc, List.cons_append, List.nil_append]
  | case5 quoting raw value c rest _ hquote ih =>
    obtain ⟨rfl, hdouble⟩ : c = '\'' ∧ quoting ≠ .double := by simpa using hquote
    have hopen : Scan.toggle ⟨quoting, false⟩ '\'' =
        if quoting = .single then .bare else .single := by
      cases quoting with
      | bare => rfl
      | single => rfl
      | double => exact absurd rfl hdouble
    rw [ih, pieces_quote (by simp [Scan.isToggle, hdouble]), hopen]
    simp only [List.reverse_cons, List.append_assoc, List.singleton_append]
  | case6 quoting raw value c rest _ _ hquote ih =>
    obtain ⟨rfl, hsingle⟩ : c = '"' ∧ quoting ≠ .single := by simpa using hquote
    have hopen : Scan.toggle ⟨quoting, false⟩ '"' =
        if quoting = .double then .bare else .double := by
      cases quoting with
      | bare => rfl
      | single => exact absurd rfl hsingle
      | double => rfl
    rw [ih, pieces_quote (by simp [Scan.isToggle, hsingle]), hopen]
    simp only [List.reverse_cons, List.append_assoc, List.singleton_append]
  | case7 quoting raw value c rest _ _ _ hgap ih =>
    obtain ⟨hblank, rfl⟩ : isBlank c = true ∧ quoting = .bare := by simpa using hgap
    have hnext : Scan.next ⟨.bare, false⟩ c = ⟨.bare, false⟩ :=
      Scan.next_of_isPlain _ (isPlain_of_isBlank hblank)
    have hsep : Scan.separates ⟨.bare, false⟩ c rest = true := by simp [Scan.separates, hblank]
    rw [ih, pieces_of_separates hsep, hnext, List.append_nil, List.append_nil]
    rfl
  | case8 quoting raw value c rest hescape hsingle hdouble hgap ih =>
    have hkept : Scan.isEscape ⟨quoting, false⟩ c = false := by
      simpa [Scan.isEscape] using hescape
    have hquote : Scan.isToggle ⟨quoting, false⟩ c = false := by
      simpa [Scan.isToggle] using And.intro hsingle hdouble
    rw [ih, pieces_kept hkept hquote (by simpa using hgap)]
    simp only [List.reverse_cons, List.append_assoc, List.singleton_append]

/-- **The words of a command are its pieces.** -/
theorem words_eq_flush (command : List Char) :
    words command = flush (pieces .start command).1 (pieces .start command).2 :=
  wordsFrom_eq_flush .bare [] [] command

/-- Every word has been typed. -/
theorem raw_ne_nil_of_mem_words {command : List Char} {w : Word} (h : w ∈ words command) :
    w.raw ≠ [] := by
  rw [words_eq_flush] at h
  exact raw_ne_nil_of_mem_flush h (raw_ne_nil_of_mem_pieces _ _)

/-! ## Each word in its place -/

theorem value_piece (s : Scan) (text : List Char) :
    (pieces s text).1.value = unquoted s (pieces s text).1.raw := by
  induction text generalizing s with
  | nil => rfl
  | cons c rest ih =>
    by_cases h : s.separates c rest = true
    · rw [pieces_of_separates h]; rfl
    · by_cases ht : s.isToggle c = true
      · rw [pieces_of_isToggle h ht]
        simp only [unquoted, ht, if_true]
        exact ih _
      · rw [pieces_of_not_isToggle h ht]
        simp only [unquoted, ht]
        exact congrArg (c :: ·) (ih _)

theorem exists_after_piece (s : Scan) (text : List Char) :
    ∃ after, text = (pieces s text).1.raw ++ after ∧
      Ends (s.after (pieces s text).1.raw) after := by
  induction text generalizing s with
  | nil => exact ⟨[], rfl, Or.inl rfl⟩
  | cons c rest ih =>
    by_cases h : s.separates c rest = true
    · rw [pieces_of_separates h]
      exact ⟨c :: rest, rfl, Or.inr ⟨c, rest, rfl, h⟩⟩
    · obtain ⟨after, hrest, hends⟩ := ih (s.next c)
      rw [(raw_pieces_of_not_separates h).1]
      exact ⟨after, congrArg (c :: ·) hrest, hends⟩

/-- The word that a text starts with stands at its start. -/
theorem standsAt_piece (text : List Char) : StandsAt (pieces .start text).1 .start text [] :=
  ⟨value_piece .start text, rfl, by simp, exists_after_piece .start text⟩

/-- A word that does not start the text keeps its place behind one more character. -/
theorem StandsAt.cons {w : Word} {s : Scan} {c b : Char} {text before : List Char}
    (h : StandsAt w (s.next c) text (b :: before)) :
    StandsAt w s (c :: text) (c :: b :: before) := by
  obtain ⟨hvalue, hstart, hlast, after, rfl, hends⟩ := h
  exact ⟨hvalue, hstart, fun d hd => hlast d (by simpa using hd), after, rfl, hends⟩

/-- A word that starts the text stands behind a separator that is put in front. -/
theorem StandsAt.cons_separator {w : Word} {s : Scan} {c : Char} {text : List Char}
    (h : StandsAt w .start text []) (hs : s.next c = .start) (hc : isBlank c = true ∨ c = '\n') :
    StandsAt w s (c :: text) [c] := by
  obtain ⟨hvalue, -, -, after, rfl, hends⟩ := h
  refine ⟨hvalue, hs, ?_, after, rfl, hends⟩
  intro d hd
  obtain rfl : c = d := by simpa using hd
  exact hc

/-- Every word but the first stands behind a separator. -/
theorem standsAt_of_mem_pieces {s : Scan} {text : List Char} {w : Word}
    (hw : w ∈ (pieces s text).2) : ∃ b before, StandsAt w s text (b :: before) := by
  induction text generalizing s with
  | nil => exact absurd hw (by simp [pieces])
  | cons c rest ih =>
    by_cases h : s.separates c rest = true
    · rw [pieces_of_separates h] at hw
      dsimp only at hw
      rw [flush] at hw
      split at hw
      · obtain ⟨b, before, hb⟩ := ih hw
        exact ⟨c, b :: before, hb.cons⟩
      · rename_i hne
        rcases List.mem_cons.mp hw with rfl | hw
        · -- the word begins right behind the separator, which is not the backslash of a
          -- continuation: a newline would follow that, and no word holds it
          rcases (separates_cases h).2 with ⟨hs, hc⟩ | ⟨hs, -, hn⟩
          · rw [hs]
            exact ⟨c, [], (standsAt_piece rest).cons_separator hs hc⟩
          · rw [hs, raw_pieces_newline hn] at hne
            exact absurd rfl hne
        · obtain ⟨b, before, hb⟩ := ih hw
          exact ⟨c, b :: before, hb.cons⟩
    · rw [(raw_pieces_of_not_separates h).2] at hw
      obtain ⟨b, before, hb⟩ := ih hw
      exact ⟨c, b :: before, hb.cons⟩

/-- **Every word stands in its command.** -/
theorem exists_standsAt {command : List Char} {w : Word} (hw : w ∈ words command) :
    ∃ before, StandsAt w .start command before := by
  rw [words_eq_flush, flush] at hw
  split at hw
  · obtain ⟨b, before, h⟩ := standsAt_of_mem_pieces hw
    exact ⟨b :: before, h⟩
  · rcases List.mem_cons.mp hw with rfl | hw
    · exact ⟨[], standsAt_piece command⟩
    · obtain ⟨b, before, h⟩ := standsAt_of_mem_pieces hw
      exact ⟨b :: before, h⟩

/-! ## Words are inert -/

/-- A separator neither makes an operator of what stands in front of it nor opens a quote. -/
theorem Ends.isNeutral {s : Scan} {rest : List Char} (h : Ends s rest) : IsNeutral rest.head? := by
  rcases h with rfl | ⟨c, more, rfl, hsep⟩
  · exact isNeutral_none
  · rcases (separates_cases hsep).2 with ⟨-, hb | rfl⟩ | ⟨-, rfl, -⟩
    · exact isNeutral_of_isPlain (isPlain_of_isBlank hb)
    · exact isNeutral_of_isPlain (c := '\n') (by decide)
    · exact ⟨by simp, by simp⟩

theorem Ends.quoting {s : Scan} {rest : List Char} (h : Ends s rest)
    (hq : (s.after rest).quoting = .bare) : s.quoting = .bare := by
  rcases h with rfl | ⟨c, more, rfl, hsep⟩
  · exact hq
  · exact (separates_cases hsep).1

/-- **The words of an inert text are inert.** -/
theorem StandsAt.inert {w : Word} {text before : List Char} (h : StandsAt w .start text before)
    (ht : Inert text) : Inert w.raw := by
  obtain ⟨-, hstart, -, after, rfl, hends⟩ := h
  have hclosed := ht.closed
  have hfree := operatorFrom_eq_none_of_append ht.free
  rw [Scan.after_append, hstart, Scan.after_append] at hclosed
  rw [hstart, operatorFrom_append hends.isNeutral, Option.or_eq_none_iff] at hfree
  exact ⟨hends.quoting hclosed, hfree.1⟩

/-! ## Words put together -/

theorem joinBlank_cons_cons (t u : List Char) (texts : List (List Char)) :
    joinBlank (t :: u :: texts) = t ++ ' ' :: joinBlank (u :: texts) := by
  simp [joinBlank, List.intercalate_cons_cons]

@[simp] theorem joinBlank_singleton (t : List Char) : joinBlank [t] = t :=
  List.intercalate_singleton

/-- **Inert texts with blanks between them are inert.** -/
theorem inert_joinBlank {texts : List (List Char)} (h : ∀ t ∈ texts, Inert t) :
    Inert (joinBlank texts) := by
  induction texts with
  | nil => exact inert_of_plainText (by simp [PlainText, joinBlank])
  | cons t texts ih =>
    have ht := h t (List.mem_cons_self ..)
    have hrest := ih fun u hu => h u (List.mem_cons_of_mem _ hu)
    cases texts with
    | nil => rw [joinBlank_singleton]; exact ht
    | cons u texts => rw [joinBlank_cons_cons]; exact ht.append_blank hrest

/-! ## Quoting anew -/

theorem isPlain_of_isHarmless {c : Char} (h : isHarmless c = true) : isPlain c = true :=
  isPlain_of_class (by decide) h

/-- Inside single quotes every character is written so that the scan stays inside them, and none
of them is live. -/
theorem scan_inSingleQuotes (c : Char) (rest : List Char) :
    operatorFrom ⟨.single, false⟩ (inSingleQuotes c ++ rest) =
        (operatorFrom ⟨.single, false⟩ rest).map (· + (inSingleQuotes c).length) ∧
      Scan.after ⟨.single, false⟩ (inSingleQuotes c) = ⟨.single, false⟩ := by
  rw [inSingleQuotes]
  split
  · refine ⟨?_, rfl⟩
    simp [operatorFrom, Scan.isLive, Scan.next, Scan.isEscape, Scan.isToggle, Scan.toggle,
      Option.map_map, Function.comp_def]
  · rename_i hc
    refine ⟨?_, ?_⟩ <;>
      simp [operatorFrom, Scan.isLive, Scan.next, Scan.isEscape, Scan.isToggle, hc]

/-- The text stays inside the quotes up to the one that closes them. -/
theorem scan_quoted (text : List Char) :
    operatorFrom ⟨.single, false⟩ (text.flatMap inSingleQuotes ++ ['\'']) = none ∧
      Scan.after ⟨.single, false⟩ (text.flatMap inSingleQuotes) = ⟨.single, false⟩ := by
  induction text with
  | nil => exact ⟨rfl, rfl⟩
  | cons c text ih =>
    obtain ⟨hfree, hafter⟩ := scan_inSingleQuotes c (text.flatMap inSingleQuotes ++ ['\''])
    rw [List.flatMap_cons, List.append_assoc, Scan.after_append, hfree, hafter, ih.1]
    exact ⟨rfl, ih.2⟩

/-- **A text that is quoted anew is inert**, whatever it holds. -/
theorem inert_requote (text : List Char) : Inert (requote text) := by
  rw [requote]
  split
  · rename_i h
    simp only [Bool.and_eq_true, List.all_eq_true] at h
    exact inert_of_plainText fun c hc => isPlain_of_isHarmless (h.2 c hc)
  · obtain ⟨hfree, hafter⟩ := scan_quoted text
    refine ⟨?_, ?_⟩
    · have hopen : Scan.start.next '\'' = ⟨.single, false⟩ := rfl
      rw [List.cons_append, Scan.after_cons, hopen, Scan.after_append, hafter]; rfl
    · rw [List.cons_append, findOperator, operatorFrom]
      exact Option.map_eq_none_iff.2 hfree

/-! ## Words are unbroken -/

/-- Taking quotes off leaves each newline behind its backslash. -/
theorem isChain_unquoted {s : Scan} {text : List Char} (h : text.IsChain Holds) :
    (unquoted s text).IsChain Holds ∧
      ((unquoted s text).head? = some '\n' → text.head? = some '\n') := by
  induction text generalizing s with
  | nil => exact ⟨.nil, id⟩
  | cons c rest ih =>
    obtain ⟨hhead, hrest⟩ := List.isChain_cons.1 h
    obtain ⟨hchain, hnl⟩ := ih (s := s.next c) hrest
    rw [unquoted]
    split
    · rename_i ht
      refine ⟨hchain, fun hn => ?_⟩
      -- a newline behind the quote would make that quote a backslash
      obtain rfl := hhead '\n' (hnl hn) rfl
      exact absurd ht (by simp [Scan.isToggle])
    · refine ⟨hchain.cons ?_, id⟩
      rintro d hd rfl
      exact hhead '\n' (hnl hd) rfl

theorem unbroken_unquoted {s : Scan} {text : List Char} (h : Unbroken text) :
    Unbroken (unquoted s text) :=
  ⟨fun hn => h.1 ((isChain_unquoted h.2).2 hn), (isChain_unquoted h.2).1⟩

/-- Between single quotes each newline keeps its backslash. -/
theorem isChain_inSingleQuotes {text : List Char} (h : text.IsChain Holds) :
    (text.flatMap inSingleQuotes ++ ['\'']).IsChain Holds ∧
      ((text.flatMap inSingleQuotes ++ ['\'']).head? = some '\n' → text.head? = some '\n') := by
  induction text with
  | nil => exact ⟨.singleton _, by simp⟩
  | cons c rest ih =>
    obtain ⟨hhead, hrest⟩ := List.isChain_cons.1 h
    obtain ⟨hchain, hnl⟩ := ih hrest
    rw [List.flatMap_cons, List.append_assoc, inSingleQuotes]
    split
    · rename_i hc
      subst hc
      have hquote : ∀ y ∈ (rest.flatMap inSingleQuotes ++ ['\'']).head?, Holds '\'' y := by
        rintro y hy rfl
        exact hhead '\n' (hnl hy) rfl
      refine ⟨?_, by simp⟩
      simp only [List.cons_append, List.nil_append, List.isChain_cons_cons]
      refine ⟨?_, ?_, ?_, ?_, hchain.cons hquote⟩ <;> · intro he; exact absurd he (by decide)
    · refine ⟨hchain.cons ?_, by simp⟩
      rintro y hy rfl
      exact hhead '\n' (hnl hy) rfl

theorem unbroken_requote {text : List Char} (h : Unbroken text) : Unbroken (requote text) := by
  rw [requote]
  split
  · exact h
  · obtain ⟨hchain, hnl⟩ := isChain_inSingleQuotes h.2
    refine ⟨by simp, List.IsChain.cons hchain ?_⟩
    rintro y hy rfl
    exact absurd (hnl hy) h.1

/-- The words of an unbroken text are unbroken. -/
theorem StandsAt.unbroken {w : Word} {s : Scan} {text before : List Char}
    (h : StandsAt w s text before) (ht : Unbroken text) : Unbroken w.raw := by
  obtain ⟨-, -, hsep, after, rfl, -⟩ := h
  refine (ht.right ?_).left
  intro hl
  rcases hsep '\\' hl with hb | hn
  · exact absurd hb (by decide)
  · exact absurd hn (by decide)

end CompactShell.Shell
