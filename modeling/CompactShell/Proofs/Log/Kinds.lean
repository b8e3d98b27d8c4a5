import CompactShell.Proofs.Log.Settled

/-!
# The kinds of secrets

Each of the five kinds of secrets fits what is said of kinds in general (`Describes`). What matters
most is that its spots start with something that no mark has a part of (`IsForeign`): a name with an
equals sign, the name of a header, a scheme or a token.
-/

namespace CompactShell.Log

open Text

/-! ## First characters -/

section Heads

variable {p : Char → Bool} {text : List Char}

theorem all_head? (h : ∀ c ∈ text, p c = true) : text.head?.all p = true := by
  cases text with
  | nil => rfl
  | cons c text => exact h c List.mem_cons_self

theorem any_head? (hne : text ≠ []) (h : ∀ c ∈ text, p c = true) (rest : List Char) :
    (text ++ rest).head?.any p = true := by
  cases text with
  | nil => exact absurd rfl hne
  | cons c text => exact h c List.mem_cons_self

/-- A part of a text that ends with one more character stands in front of that. -/
theorem mem_of_append_concat {front back : List Char} {c : Char} (h : text ++ [c] = front ++ back)
    (hne : back ≠ []) : ∀ d ∈ front, d ∈ text := by
  rcases List.eq_nil_or_concat back with hnil | ⟨init, e, rfl⟩
  · exact absurd hnil hne
  · rw [List.concat_eq_append, ← List.append_assoc] at h
    intro d hd
    rw [List.append_inj_left' h rfl]
    exact List.mem_append_left _ hd

end Heads

/-! ## What stands in no mark -/

section Foreign

variable {text front back : List Char}

theorem ends_of_class {p : Char → Bool} (hstart : p '<' = false) (hend : p '>' = false)
    (h : ∀ c ∈ text, p c = true) : ∀ c ∈ text, c ≠ '<' ∧ c ≠ '>' := by
  intro c hc
  have hin := h c hc
  constructor
  · intro heq
    rw [heq, hstart] at hin
    cases hin
  · intro heq
    rw [heq, hend] at hin
    cases hin

theorem ends_append (hfront : ∀ c ∈ front, c ≠ '<' ∧ c ≠ '>') (hback : ∀ c ∈ back, c ≠ '<' ∧ c ≠ '>') :
    ∀ c ∈ front ++ back, c ≠ '<' ∧ c ≠ '>' := by
  intro c hc
  rcases List.mem_append.1 hc with hc | hc
  · exact hfront c hc
  · exact hback c hc

theorem ends_of_isSpace (h : ∀ c ∈ text, isSpace c = true) : ∀ c ∈ text, c ≠ '<' ∧ c ≠ '>' :=
  ends_of_class (by decide) (by decide) h

theorem IsForeign.append_left (h : IsForeign back) (hfront : ∀ c ∈ front, c ≠ '<' ∧ c ≠ '>') :
    IsForeign (front ++ back) := by
  obtain ⟨c, hc, hother⟩ := h.other
  exact ⟨ends_append hfront h.ends, c, List.mem_append_right _ hc, hother⟩

theorem IsForeign.append_right (h : IsForeign front) (hback : ∀ c ∈ back, c ≠ '<' ∧ c ≠ '>') :
    IsForeign (front ++ back) := by
  obtain ⟨c, hc, hother⟩ := h.other
  exact ⟨ends_append h.ends hback, c, List.mem_append_left _ hc, hother⟩

theorem fold_mem {letters : List Char} (h : text.map fold = letters) :
    ∀ c ∈ text, decide (fold c ∈ letters) = true := by
  intro c hc
  rw [← h]
  exact decide_eq_true (List.mem_map_of_mem hc)

/-- A word in any case is foreign, if its letters are no ends of a mark and one is none of a mark's. -/
theorem isForeign_of_fold {letters : List Char} (h : text.map fold = letters)
    (hstart : fold '<' ∉ letters) (hend : fold '>' ∉ letters) {d : Char} (hd : d ∈ letters)
    (hother : ∀ c ∈ markLetters, fold c ≠ d) : IsForeign text := by
  refine ⟨ends_of_class (decide_eq_false hstart) (decide_eq_false hend) (fold_mem h), ?_⟩
  rw [← h] at hd
  obtain ⟨c, hc, hfold⟩ := List.mem_map.1 hd
  exact ⟨c, hc, fun hin => hother c hin hfold⟩

theorem IsHeader.isForeign (h : IsHeader text) : IsForeign text := by
  obtain ⟨word, gap, rfl, hfold, hgap⟩ := h
  have hword : IsForeign word :=
    isForeign_of_fold hfold (by decide) (by decide) (show 'u' ∈ _ by decide) (by decide)
  exact (hword.append_right (ends_of_isSpace hgap)).append_right (by decide)

theorem IsScheme.isForeign (h : IsScheme text) : IsForeign text := by
  rcases h with h | h
  · exact isForeign_of_fold h (by decide) (by decide) (show '/' ∈ _ by decide) (by decide)
  · exact isForeign_of_fold h (by decide) (by decide) (show '/' ∈ _ by decide) (by decide)

theorem isForeign_assigned (h : ∀ c ∈ text, isKeyChar c = true) : IsForeign (text ++ ['=']) := by
  have hequals : IsForeign ['='] := ⟨by decide, '=', by decide, by decide⟩
  exact hequals.append_left (ends_of_class (by decide) (by decide) h)

theorem isForeign_quoted {quote : Char} {gap header : List Char} (hquote : isQuote quote = true)
    (hgap : ∀ c ∈ gap, isSpace c = true) (hheader : IsHeader header) :
    IsForeign (quote :: gap ++ header) := by
  have hquotes : ∀ c ∈ [quote], isQuote c = true := by
    intro c hc
    rw [List.mem_singleton.1 hc]
    exact hquote
  exact hheader.isForeign.append_left
    (ends_append (ends_of_class (by decide) (by decide) hquotes) (ends_of_isSpace hgap))

theorem isForeign_token {kind : Char} (hkind : kind ∈ ['p', 'o', 'u', 's', 'r'])
    (hbody : ∀ c ∈ text, c.isAlphanum = true) : IsForeign ('g' :: 'h' :: kind :: '_' :: text) := by
  have hkinds : ∀ d ∈ ['p', 'o', 'u', 's', 'r'], IsForeign ['g', 'h', d, '_'] := by
    intro d hd
    refine ⟨?_, '_', by simp, by decide⟩
    revert d
    decide
  exact (hkinds kind hkind).append_right (ends_of_class (by decide) (by decide) hbody)

end Foreign

/-! ## The kinds -/

theorem insideWord_head?_of_isSpace {rest : List Char} (h : ∀ c ∈ rest.head?, isSpace c = true) :
    insideWord rest.head? = false := by
  cases rest with
  | nil => rfl
  | cons c rest => exact not_isWordChar_of_isSpace (h c rfl)

theorem describes_assigned : Describes AssignedSpot assignedSecret where
  finds := finds_assigned
  secret_ne_nil := by
    intro before spot rest hspot
    obtain ⟨-, -, -, hne, -, -⟩ := hspot
    exact hne
  isShown := by
    intro before spot rest hspot
    cases hspot
    exact .inl rfl
  isForeign := by
    intro before spot rest hspot
    obtain ⟨-, hname, -, -, -, -⟩ := hspot
    exact ⟨_, _, List.append_assoc _ _ _, isForeign_assigned hname⟩
  outside := by
    intro before spot rest hspot
    obtain ⟨-, -, -, -, -, hrest⟩ := hspot
    exact insideWord_head?_of_isSpace hrest

theorem describes_quoted : Describes QuotedSpot quotedHeader where
  finds := finds_quoted
  secret_ne_nil := by
    intro before spot rest hspot
    obtain ⟨-, -, -, -, hne, -, -, -⟩ := hspot
    exact hne
  isShown := by
    intro before spot rest hspot
    cases hspot
    exact .inl rfl
  isForeign := by
    intro before spot rest hspot
    obtain ⟨hquote, hgap, hheader, hafter, -, -, -, -⟩ := hspot
    refine ⟨_, _, List.append_assoc _ _ _, ?_⟩
    exact (isForeign_quoted hquote hgap hheader).append_right (ends_of_isSpace hafter)
  outside := by
    intro before spot rest hspot
    obtain ⟨-, -, -, -, -, -, -, hclosing⟩ := hspot
    exact not_isWordChar_of_isQuote hclosing

theorem describes_bare : Describes BareSpot bareHeader where
  finds := finds_bare
  secret_ne_nil := by
    intro before spot rest hspot
    obtain ⟨-, -, hne, -, -⟩ := hspot
    exact hne
  isShown := by
    intro before spot rest hspot
    cases hspot
    exact .inl rfl
  isForeign := by
    intro before spot rest hspot
    obtain ⟨hheader, hafter, -, -, -⟩ := hspot
    exact ⟨_, _, List.append_assoc _ _ _, hheader.isForeign.append_right (ends_of_isSpace hafter)⟩
  outside := by
    intro before spot rest hspot
    obtain ⟨-, -, -, -, hrest⟩ := hspot
    cases rest with
    | nil => rfl
    | cons c rest =>
      have hend := hrest c rfl
      rw [Bool.and_eq_false_iff, Bool.not_eq_false', Bool.not_eq_false'] at hend
      rcases hend with hspace | hquote
      · exact not_isWordChar_of_isSpace hspace
      · exact not_isWordChar_of_isQuote hquote

theorem describes_url : Describes UrlSpot urlCredentials where
  finds := finds_url
  secret_ne_nil := by
    intro before spot rest hspot
    obtain ⟨-, huser, -, -, -⟩ := hspot
    exact List.append_ne_nil_of_left_ne_nil huser _
  isShown := by
    intro before spot rest hspot
    cases hspot
    exact .inr rfl
  isForeign := by
    intro before spot rest hspot
    obtain ⟨hscheme, -, -, -, -⟩ := hspot
    exact ⟨_, _, List.append_assoc _ _ _, hscheme.isForeign⟩
  outside := by
    intro before spot rest hspot
    cases hspot
    exact (show insideWord (some '@') = false by decide)

theorem describes_token : Describes TokenSpot accessToken where
  finds := finds_token
  secret_ne_nil := by
    intro before spot rest hspot
    cases hspot
    exact List.cons_ne_nil _ _
  isShown := by
    intro before spot rest hspot
    cases hspot
    exact .inl rfl
  isForeign := by
    intro before spot rest hspot
    obtain ⟨-, hkind, hbody, -, -⟩ := hspot
    exact ⟨_, [], rfl, isForeign_token hkind hbody⟩
  outside := by
    intro before spot rest hspot
    obtain ⟨-, -, -, -, hrest⟩ := hspot
    exact hrest

end CompactShell.Log
