import CompactShell.Proofs.Shell.Layout

/-!
# The characters of words

Every character of a command separates words or belongs to one. `typedFrom` keeps those of the
second kind, in order, and they are what the words are made of (`append_flatMap_raw`).

Whether a character separates depends on the one behind it only if it is a backslash. So texts are
read one behind the other where the first does not end with an escape (`typedFrom_append`), and the
escaped and quoted blanks of a text can be counted in any case (`count_typedFrom_append`).
-/

namespace CompactShell.Shell

open Text

/-- The characters of a text that do not separate words, when it is read from the state `s`. -/
def typedFrom (s : Scan) : List Char → List Char
  | [] => []
  | c :: rest =>
    if s.separates c rest then typedFrom (s.next c) rest else c :: typedFrom (s.next c) rest

/-! ## Words are made of them -/

theorem raw_append_flush (piece : Word) (ws : List Word) :
    (flush piece ws).flatMap Word.raw = piece.raw ++ ws.flatMap Word.raw := by
  rw [flush]
  split
  · rename_i hempty
    rw [List.isEmpty_iff.1 hempty, List.nil_append]
  · rfl

/-- **Words are made of the characters that do not separate them.** -/
theorem append_flatMap_raw (s : Scan) (text : List Char) :
    (pieces s text).1.raw ++ (pieces s text).2.flatMap Word.raw = typedFrom s text := by
  induction text generalizing s with
  | nil => rfl
  | cons c rest ih =>
    rw [typedFrom]
    by_cases hsep : s.separates c rest = true
    · rw [pieces_of_separates hsep, if_pos hsep, ← ih, raw_append_flush]
      rfl
    · obtain ⟨hraw, hwords⟩ := raw_pieces_of_not_separates hsep
      rw [hraw, hwords, if_neg hsep, List.cons_append, ih]

theorem flatMap_raw_words (command : List Char) :
    (words command).flatMap Word.raw = typedFrom .start command := by
  rw [words_eq_flush, raw_append_flush, append_flatMap_raw]

/-- A word has no character that the command does not have. -/
theorem mem_of_mem_typedFrom {s : Scan} {text : List Char} {c : Char} (h : c ∈ typedFrom s text) :
    c ∈ text := by
  induction text generalizing s with
  | nil => exact h
  | cons d rest ih =>
    rw [typedFrom] at h
    split at h
    · exact List.mem_cons_of_mem _ (ih h)
    · rcases List.mem_cons.1 h with rfl | h
      · exact List.mem_cons_self ..
      · exact List.mem_cons_of_mem _ (ih h)

/-! ## Texts one behind the other -/

/-- A character that is no escape separates whatever stands behind it, or not at all. -/
theorem separates_eq_of_not_isEscape {s : Scan} {c : Char} (h : s.isEscape c = false)
    (rest more : List Char) : s.separates c rest = s.separates c more := by
  by_cases hc : c = '\\'
  · subst hc
    obtain ⟨q, e⟩ := s
    cases q with
    | bare =>
      cases e with
      | true => rfl
      | false => cases h
    | single | double => rfl
  · simp [Scan.separates, hc]

theorem separates_append {s : Scan} {c : Char} {a : List Char}
    (h : a ≠ [] ∨ (s.next c).escaped = false) (b : List Char) :
    s.separates c (a ++ b) = s.separates c a := by
  cases a with
  | cons d a => rfl
  | nil =>
    have hescape : s.isEscape c = false := by
      by_contra htrue
      rw [Bool.not_eq_false] at htrue
      rw [Scan.next, if_pos htrue] at h
      simp at h
    exact separates_eq_of_not_isEscape hescape _ _

theorem typedFrom_append {s : Scan} {a : List Char} (h : (s.after a).escaped = false)
    (b : List Char) : typedFrom s (a ++ b) = typedFrom s a ++ typedFrom (s.after a) b := by
  induction a generalizing s with
  | nil => rfl
  | cons c a ih =>
    have hlast : a ≠ [] ∨ (s.next c).escaped = false := by
      cases a with
      | nil => exact .inr h
      | cons d a => exact .inl (List.cons_ne_nil d a)
    rw [List.cons_append, typedFrom, typedFrom, separates_append hlast, ih h, Scan.after_cons]
    split
    · rfl
    · rfl

/-- What follows cannot make a blank belong to a word, or keep it from that. -/
theorem count_typedFrom_append (s : Scan) (a b : List Char) :
    (typedFrom s (a ++ b)).count ' ' =
      (typedFrom s a).count ' ' + (typedFrom (s.after a) b).count ' ' := by
  induction a generalizing s with
  | nil => rw [List.nil_append, typedFrom, List.count_nil, Nat.zero_add, Scan.after_nil]
  | cons c a ih =>
    rw [List.cons_append, typedFrom, typedFrom, Scan.after_cons]
    by_cases hc : c = ' '
    · subst hc
      have hescape : s.isEscape ' ' = false := by simp [Scan.isEscape]
      rw [separates_eq_of_not_isEscape hescape (a ++ b) a]
      split
      · exact ih _
      · rw [List.count_cons_self, List.count_cons_self, ih]
        omega
    · have hcount : ∀ text : List Char, (c :: text).count ' ' = text.count ' ' := fun text =>
        List.count_cons_of_ne hc
      simp only [apply_ite (List.count ' '), hcount, ite_self]
      exact ih _

/-! ## Plain characters in front -/

theorem not_separates_of_isPlain {c : Char} (hplain : isPlain c = true)
    (hblank : isBlank c = false) (rest : List Char) : ¬ Scan.start.separates c rest = true := by
  have hbackslash : c ≠ '\\' := ne_of_isPlain hplain (by decide)
  simp [Scan.separates, Scan.start, hbackslash, hblank]

theorem pieces_solid_cons {c : Char} (hplain : isPlain c = true) (hblank : isBlank c = false)
    (text : List Char) :
    (pieces .start (c :: text)).1.raw = c :: (pieces .start text).1.raw ∧
      (pieces .start (c :: text)).2 = (pieces .start text).2 := by
  have hnext : Scan.start.next c = .start := Scan.next_of_isPlain .start hplain
  have hpieces := raw_pieces_of_not_separates (not_separates_of_isPlain hplain hblank text)
  rwa [hnext] at hpieces

theorem words_dropWhile_isBlank (text : List Char) :
    words (text.dropWhile isBlank) = words text := by
  induction text with
  | nil => rfl
  | cons c text ih =>
    by_cases hblank : isBlank c = true
    · rw [List.dropWhile_cons_of_pos hblank, ih, words_cons_blank hblank]
    · rw [List.dropWhile_cons_of_neg hblank]

/-- Where no word goes on, all words are behind. -/
theorem behind_dropWhile_not_isBlank (text : List Char) :
    (pieces .start (text.dropWhile (!isBlank ·))).2 =
      words (text.dropWhile (!isBlank ·)) := by
  cases htext : text.dropWhile (!isBlank ·) with
  | nil => rfl
  | cons c rest =>
    have hhead := List.head?_dropWhile_not (!isBlank ·) text
    rw [htext] at hhead
    have hblank : isBlank c = true := by simpa using hhead
    rw [words_eq_flush, pieces_of_separates (separates_of_isBlank hblank rest)]
    rfl

/-- A plain text without blanks goes into the word that stands behind it. -/
theorem pieces_solid_append {front : List Char} (hplain : PlainText front)
    (hsolid : ∀ c ∈ front, isBlank c = false) (text : List Char) :
    (pieces .start (front ++ text)).1.raw = front ++ (pieces .start text).1.raw ∧
      (pieces .start (front ++ text)).2 = (pieces .start text).2 := by
  induction front with
  | nil => exact ⟨rfl, rfl⟩
  | cons c front ih =>
    rw [PlainText, List.forall_mem_cons] at hplain
    rw [List.forall_mem_cons] at hsolid
    obtain ⟨hraw, hwords⟩ := ih hplain.2 hsolid.2
    obtain ⟨hfirst, hlater⟩ := pieces_solid_cons hplain.1 hsolid.1 (front ++ text)
    exact ⟨by rw [List.cons_append, hfirst, hraw, List.cons_append], hlater.trans hwords⟩

/-- Behind a plain text the words go on: the first of them ends a word, and the others follow. -/
theorem exists_words_plainText_append {front : List Char} (hplain : PlainText front)
    {text : List Char} (hne : (pieces .start text).1.raw ≠ []) :
    ∃ lead before word, words (front ++ text) = lead ++ word :: (pieces .start text).2 ∧
      word.raw = before ++ (pieces .start text).1.raw := by
  induction front with
  | nil => exact ⟨[], [], _, words_of_piece hne, rfl⟩
  | cons c front ih =>
    rw [PlainText, List.forall_mem_cons] at hplain
    obtain ⟨lead, before, word, hwords, hraw⟩ := ih hplain.2
    rw [List.cons_append]
    by_cases hblank : isBlank c = true
    · exact ⟨lead, before, word, (words_cons_blank hblank _).trans hwords, hraw⟩
    · obtain ⟨hfirst, hlater⟩ :=
        pieces_solid_cons hplain.1 (eq_false_of_ne_true hblank) (front ++ text)
      have hall : words (c :: (front ++ text)) =
          (pieces .start (c :: (front ++ text))).1 :: (pieces .start (front ++ text)).2 := by
        have hsome : (pieces .start (c :: (front ++ text))).1.raw ≠ [] := by
          rw [hfirst]
          exact List.cons_ne_nil _ _
        rw [← hlater]
        exact words_of_piece hsome
      rw [hall]
      -- the character is a word of its own, or goes in front of the first word
      rw [words_eq_flush, flush] at hwords
      split at hwords
      · exact ⟨_ :: lead, before, word, by rw [hwords]; rfl, hraw⟩
      · cases lead with
        | nil =>
          obtain ⟨rfl, hlast⟩ := List.cons.inj hwords
          exact ⟨[], c :: before, _, by rw [hlast]; rfl, by rw [hfirst, hraw]; rfl⟩
        | cons first lead =>
          obtain ⟨-, hlast⟩ := List.cons.inj hwords
          exact ⟨_ :: lead, before, word, by rw [hlast]; rfl, hraw⟩

/-! ## White space in front -/

theorem typedFrom_white {white : List Char} (h : ∀ c ∈ white, isSpace c = true) :
    typedFrom .start white = white.filter (!isBlank ·) := by
  induction white with
  | nil => rfl
  | cons c white ih =>
    rw [List.forall_mem_cons] at h
    have hplain := isPlain_of_isSpace h.1
    have hnext : Scan.start.next c = .start := Scan.next_of_isPlain .start hplain
    have hsep : Scan.start.separates c white = isBlank c := by
      cases hblank : isBlank c with
      | true => exact separates_of_isBlank hblank white
      | false => exact eq_false_of_ne_true (not_separates_of_isPlain hplain hblank white)
    rw [typedFrom, hnext, hsep, ih h.2, List.filter_cons]
    cases isBlank c with
    | true => rfl
    | false => rfl

end CompactShell.Shell
