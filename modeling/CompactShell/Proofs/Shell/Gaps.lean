import CompactShell.Proofs.Shell.Words

/-!
# Gaps between words

A gap is blanks, and backslashes with a newline behind each (`IsGap`). The words of a text do not
depend on the gaps in it: what stands behind a gap is read as if it stood alone
(`words_append_gap`), provided that the text in front is whole. Where a quote is open, or a
backslash waits for its character, the gap becomes a part of the last word.
-/

namespace CompactShell.Shell

open Text

/-- Every quote of the text is closed at its end, and no backslash waits there for its character. -/
def IsWhole (text : List Char) : Prop :=
  Scan.start.after text = .start

instance (text : List Char) : Decidable (IsWhole text) :=
  inferInstanceAs (Decidable (_ = _))

/-- Blanks and continuations, one behind the other. -/
inductive IsGap : List Char → Prop where
  | nil : IsGap []
  | blank {c : Char} {rest : List Char} : isBlank c = true → IsGap rest → IsGap (c :: rest)
  | continuation {rest : List Char} : IsGap rest → IsGap ('\\' :: '\n' :: rest)

theorem isGap_of_blank {gap : List Char} (h : ∀ c ∈ gap, isBlank c = true) : IsGap gap := by
  induction gap with
  | nil => exact .nil
  | cons c gap ih =>
    rw [List.forall_mem_cons] at h
    exact .blank h.1 (ih h.2)

theorem IsGap.append {gap more : List Char} (h : IsGap gap) (hmore : IsGap more) :
    IsGap (gap ++ more) := by
  induction h with
  | nil => exact hmore
  | blank hc _ ih => exact .blank hc ih
  | continuation _ ih => exact .continuation ih

/-- No gap starts with a newline, so it continues no line that ends in front of it. -/
theorem IsGap.head?_ne {gap : List Char} (h : IsGap gap) (hne : gap ≠ []) (rest : List Char) :
    (gap ++ rest).head? ≠ some '\n' := by
  cases h with
  | nil => exact absurd rfl hne
  | blank hc _ =>
    rintro he
    obtain rfl := Option.some.inj he
    cases hc
  | continuation _ => simp

theorem separates_of_isBlank {c : Char} (h : isBlank c = true) (rest : List Char) :
    Scan.start.separates c rest = true := by
  simp [Scan.separates, Scan.start, h]

theorem pieces_cons_blank {c : Char} (h : isBlank c = true) (text : List Char) :
    pieces .start (c :: text) = (⟨[], []⟩, words text) := by
  have hnext : Scan.start.next c = .start := Scan.next_of_isPlain .start (isPlain_of_isBlank h)
  rw [pieces_of_separates (separates_of_isBlank h text), hnext, words_eq_flush]

theorem pieces_cons_continuation (text : List Char) :
    pieces .start ('\\' :: '\n' :: text) = (⟨[], []⟩, words text) := by
  rw [pieces_continuation, words_eq_flush]

theorem words_of_pieces {text : List Char} {ws : List Word}
    (h : pieces .start text = (⟨[], []⟩, ws)) : words text = ws := by
  rw [words_eq_flush, h]
  rfl

theorem words_cons_blank {c : Char} (h : isBlank c = true) (text : List Char) :
    words (c :: text) = words text :=
  words_of_pieces (pieces_cons_blank h text)

/-- A gap in front of a text belongs to no word. -/
theorem words_gap_append {gap : List Char} (h : IsGap gap) (text : List Char) :
    words (gap ++ text) = words text := by
  induction h with
  | nil => rfl
  | blank hc _ ih => rw [List.cons_append, words_cons_blank hc, ih]
  | continuation _ ih =>
    rw [List.cons_append, List.cons_append, words_of_pieces (pieces_cons_continuation _), ih]

theorem pieces_gap_append {gap : List Char} (h : IsGap gap) (hne : gap ≠ []) (text : List Char) :
    pieces .start (gap ++ text) = (⟨[], []⟩, words text) := by
  cases h with
  | nil => exact absurd rfl hne
  | blank hc hrest => rw [List.cons_append, pieces_cons_blank hc, words_gap_append hrest]
  | continuation hrest =>
    rw [List.cons_append, List.cons_append, pieces_cons_continuation, words_gap_append hrest]

theorem flush_append (piece : Word) (ws more : List Word) :
    flush piece (ws ++ more) = flush piece ws ++ more := by
  rw [flush, flush]
  split
  · rfl
  · rfl

/-- What follows a text takes no part in it, unless it starts with a newline. -/
theorem separates_append_of_head? {rest : List Char} (h : rest.head? ≠ some '\n') (s : Scan)
    (c : Char) (text : List Char) : s.separates c (text ++ rest) = s.separates c text := by
  cases text with
  | nil =>
    have hhead : (rest.head? == some '\n') = false := beq_eq_false_iff_ne.2 h
    simp [Scan.separates, hhead]
  | cons d text => rfl

theorem pieces_append_gap {s : Scan} {a gap : List Char} (ha : s.after a = .start)
    (hgap : IsGap gap) (hne : gap ≠ []) (b : List Char) :
    pieces s (a ++ (gap ++ b)) = ((pieces s a).1, (pieces s a).2 ++ words b) := by
  induction a generalizing s with
  | nil =>
    obtain rfl : s = .start := ha
    exact pieces_gap_append hgap hne b
  | cons c a ih =>
    have hrest := ih (s := s.next c) ha
    have hsame := separates_append_of_head? (hgap.head?_ne hne b) s c a
    rw [List.cons_append]
    by_cases hsep : s.separates c a = true
    · rw [pieces_of_separates (hsame.trans hsep), pieces_of_separates hsep, hrest, flush_append]
    · have hsep' : ¬ s.separates c (a ++ (gap ++ b)) = true := by rwa [hsame]
      by_cases htoggle : s.isToggle c = true
      · rw [pieces_of_isToggle hsep' htoggle, pieces_of_isToggle hsep htoggle, hrest]
      · rw [pieces_of_not_isToggle hsep' htoggle, pieces_of_not_isToggle hsep htoggle, hrest]

/-- **What stands behind a gap is read by itself**, if all quotes in front of it are closed. -/
theorem words_append_gap {a gap : List Char} (ha : IsWhole a) (hgap : IsGap gap) (hne : gap ≠ [])
    (b : List Char) : words (a ++ (gap ++ b)) = words a ++ words b := by
  rw [words_eq_flush, pieces_append_gap ha hgap hne b, flush_append, words_eq_flush a]

theorem words_append_blank {a : List Char} (h : IsWhole a) (b : List Char) :
    words (a ++ ' ' :: b) = words a ++ words b :=
  words_append_gap h (.blank rfl .nil) (List.cons_ne_nil ' ' []) b

/-- A gap behind a text belongs to no word either. -/
theorem words_append_of_isGap {a gap : List Char} (ha : IsWhole a) (hgap : IsGap gap) :
    words (a ++ gap) = words a := by
  by_cases hne : gap = []
  · rw [hne, List.append_nil]
  · have happend := words_append_gap ha hgap hne []
    have hnone : words [] = [] := rfl
    rwa [List.append_nil, hnone, List.append_nil] at happend

end CompactShell.Shell
