import CompactShell.Proofs.Shell.Single

/-!
# How words are laid out

A command is words with gaps around them. `Layout text ws` says that the words lie in the text one
behind the other, without reading it: only the last of them may have an open quote or a backslash
left over, since a gap behind it would become a part of it. What is laid out is what is read
(`words_eq_iff`), so a text is laid out in one way, and words are read back from every layout of
them. The plainest of these has single blanks between the words (`Layout.joinBlank`).
-/

namespace CompactShell.Shell

open Text

/-! ## Layouts -/

/-- The text is these words, each with a gap behind it. The last word needs none, and has none if it
is not finished. -/
inductive Layout : List Char → List Word → Prop where
  | nil : Layout [] []
  | cons {raw gap rest : List Char} {ws : List Word} : raw ≠ [] → isGapless .start raw = true →
      IsGap gap → (gap ≠ [] → IsWhole raw) → (ws ≠ [] → gap ≠ []) → Layout rest ws →
      Layout (raw ++ (gap ++ rest)) (Word.ofText raw :: ws)

/-- **What is laid out is read.** -/
theorem Layout.words_eq {text : List Char} {ws : List Word} (h : Layout text ws) :
    words text = ws := by
  induction h with
  | nil => rfl
  | @cons raw gap rest ws hraw hgapless hgap hwhole hbetween hrest ih =>
    by_cases hne : gap = []
    · -- nothing can follow the word
      have hlast : ws = [] := by
        by_contra hws
        exact hbetween hws hne
      subst hne hlast
      cases hrest
      rw [List.append_nil, List.append_nil, words_of_isGapless hraw hgapless]
    · have hword : IsWord raw := ⟨hraw, hgapless, hwhole hne⟩
      rw [words_append_gap hword.whole hgap hne, hword.words_eq, ih]
      rfl

theorem Layout.single {raw : List Char} (hraw : raw ≠ []) (hgapless : isGapless .start raw = true) :
    Layout raw [Word.ofText raw] := by
  have hlast := Layout.cons hraw hgapless .nil (absurd rfl) (absurd rfl) .nil
  rwa [List.append_nil, List.append_nil] at hlast

/-- Where no word starts, there is a gap. -/
theorem exists_gap_of_piece_eq_nil {text : List Char} (hne : text ≠ [])
    (hraw : (pieces .start text).1.raw = []) :
    ∃ gap rest, text = gap ++ rest ∧ IsGap gap ∧ gap ≠ [] := by
  obtain ⟨c, text, rfl⟩ := List.exists_cons_of_ne_nil hne
  have hsep : Scan.start.separates c text = true := by
    by_contra hno
    rw [(raw_pieces_of_not_separates hno).1] at hraw
    exact absurd hraw (List.cons_ne_nil _ _)
  rcases (separates_cases hsep).2 with ⟨-, hc | rfl⟩ | ⟨-, rfl, hnewline⟩
  · exact ⟨[c], text, rfl, .blank hc .nil, List.cons_ne_nil _ _⟩
  · cases hsep
  · obtain ⟨text, rfl⟩ := List.head?_eq_some_iff.1 hnewline
    exact ⟨['\\', '\n'], text, rfl, .continuation .nil, List.cons_ne_nil _ _⟩

/-- Every text is laid out behind a gap. The gap is empty only where a word starts at once. -/
theorem exists_layout (text : List Char) :
    ∃ gap rest, text = gap ++ rest ∧ IsGap gap ∧ Layout rest (words text) ∧
      (gap = [] → text = [] ∨ (pieces .start text).1.raw ≠ []) := by
  induction hlength : text.length using Nat.strong_induction_on generalizing text with
  | h n ih =>
    subst hlength
    by_cases hraw : (pieces .start text).1.raw = []
    · by_cases hempty : text = []
      · exact ⟨[], [], hempty, .nil, by rw [hempty]; exact .nil, fun _ => .inl hempty⟩
      · obtain ⟨gap, rest, rfl, hgap, hne⟩ := exists_gap_of_piece_eq_nil hempty hraw
        have hshort : rest.length < (gap ++ rest).length := by
          have hpositive := List.length_pos_iff.2 hne
          rw [List.length_append]
          omega
        obtain ⟨more, rest, rfl, hmore, hlaid, -⟩ := ih _ hshort rest rfl
        rw [words_gap_append hgap]
        exact ⟨gap ++ more, rest, (List.append_assoc ..).symm, hgap.append hmore, hlaid,
          fun hnil => absurd (List.append_eq_nil_iff.1 hnil).1 hne⟩
    · obtain ⟨after, htext, hends⟩ := exists_after_piece .start text
      refine ⟨[], text, rfl, .nil, ?_, fun _ => .inr hraw⟩
      have hgapless := isGapless_piece .start text
      rcases hends with rfl | ⟨d, more, rfl, hsep⟩
      · have hlaid := Layout.single hraw hgapless
        rw [List.append_nil] at htext
        rw [← htext] at hlaid
        rwa [← hlaid.words_eq] at hlaid
      · -- the word is finished, and the gap behind it starts with the separator
        have hwhole := isWhole_piece hraw htext hsep
        have hshort : (d :: more).length < text.length := by
          have hpositive := List.length_pos_iff.2 hraw
          have htotal := congrArg List.length htext
          rw [List.length_append] at htotal
          omega
        obtain ⟨gap, rest, hafter, hgap, hlaid, hsome⟩ := ih _ hshort (d :: more) rfl
        have hne : gap ≠ [] := by
          intro hnil
          rw [hwhole] at hsep
          rcases hsome hnil with hempty | hpiece
          · cases hempty
          · rw [pieces_of_separates hsep] at hpiece
            exact hpiece rfl
        have hall := Layout.cons hraw hgapless hgap (fun _ => hwhole) (fun _ => hne) hlaid
        rw [← hafter, ← htext] at hall
        rwa [← hall.words_eq] at hall

/-- **Reading a text undoes laying it out**, whatever stands in the gaps. -/
theorem words_eq_iff {text : List Char} {ws : List Word} :
    words text = ws ↔ ∃ gap rest, text = gap ++ rest ∧ IsGap gap ∧ Layout rest ws := by
  constructor
  · rintro rfl
    obtain ⟨gap, rest, htext, hgap, hlaid, -⟩ := exists_layout text
    exact ⟨gap, rest, htext, hgap, hlaid⟩
  · rintro ⟨gap, rest, rfl, hgap, hlaid⟩
    rw [words_gap_append hgap, hlaid.words_eq]

/-- Words can be laid out with single blanks. -/
theorem Layout.joinBlank {text : List Char} {ws : List Word} (h : Layout text ws) :
    Layout (joinBlank (ws.map Word.raw)) ws := by
  induction h with
  | nil => exact .nil
  | @cons raw gap rest ws hraw hgapless hgap hwhole hbetween hrest ih =>
    cases ws with
    | nil =>
      rw [List.map_singleton, joinBlank_singleton]
      exact .single hraw hgapless
    | cons w ws =>
      rw [List.map_cons, List.map_cons, joinBlank_cons_cons]
      exact .cons hraw hgapless (.blank rfl .nil) (fun _ => hwhole (hbetween (List.cons_ne_nil _ _)))
        (fun _ => List.cons_ne_nil ' ' []) ih

/-- The gaps of a layout, one behind each word. -/
theorem Layout.exists_gaps {text : List Char} {ws : List Word} (h : Layout text ws) :
    ∃ gaps : List (List Char), gaps.length = ws.length ∧
      text = (List.zipWith (fun w gap => w.raw ++ gap) ws gaps).flatten ∧
      (∀ gap ∈ gaps, IsGap gap) ∧ [] ∉ gaps.dropLast := by
  induction h with
  | nil => exact ⟨[], rfl, rfl, by simp, by simp⟩
  | @cons raw gap rest ws hraw hgapless hgap hwhole hbetween hrest ih =>
    obtain ⟨gaps, hlength, htext, hgaps, hinner⟩ := ih
    refine ⟨gap :: gaps, congrArg (· + 1) hlength, ?_, ?_, ?_⟩
    · rw [htext, List.zipWith_cons_cons, List.flatten_cons, List.append_assoc]
      rfl
    · exact List.forall_mem_cons.2 ⟨hgap, hgaps⟩
    · cases gaps with
      | nil => exact List.not_mem_nil
      | cons next gaps =>
        rw [List.dropLast_cons_cons, List.mem_cons, not_or]
        have hws : ws ≠ [] := List.ne_nil_of_length_pos (hlength ▸ Nat.succ_pos _)
        exact ⟨(hbetween hws).symm, hinner⟩

/-! ## Words as a partition -/

/-- **Nothing of a text is lost.** It is its words with gaps in front, between and behind, and no gap
between two words is empty. Each word is what was typed, its value the same without the quotes that
delimit. The words with single blanks between them are read back as they are. -/
theorem words_partition (text : List Char) :
    (∃ lead gaps, gaps.length = (words text).length ∧
      text = lead ++ (List.zipWith (fun w gap => w.raw ++ gap) (words text) gaps).flatten ∧
      IsGap lead ∧ (∀ gap ∈ gaps, IsGap gap) ∧ [] ∉ gaps.dropLast) ∧
    (∀ w ∈ words text, w.raw ≠ [] ∧ w.value = unquoted .start w.raw) ∧
    words (joinBlank ((words text).map Word.raw)) = words text := by
  obtain ⟨lead, rest, htext, hlead, hlaid, -⟩ := exists_layout text
  obtain ⟨gaps, hlength, hrest, hgaps, hinner⟩ := hlaid.exists_gaps
  refine ⟨⟨lead, gaps, hlength, by rw [← hrest, ← htext], hlead, hgaps, hinner⟩, ?_, ?_⟩
  · intro w hw
    obtain ⟨before, hstands⟩ := exists_standsAt hw
    exact ⟨raw_ne_nil_of_mem_words hw, hstands.value_eq⟩
  · exact hlaid.joinBlank.words_eq

end CompactShell.Shell
