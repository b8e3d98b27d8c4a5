import CompactShell.Log.Finder

/-!
# Replacing part by part

Replacing goes through a text from left to right. A secret that is found is shown in its place, and
the replacing goes on behind it (`replaceFrom_of_found`). Where no secret reaches over the end of a
part, whatever stands behind (`IsClosed`), the part is replaced by itself and what stands behind it
afterwards (`replaceFrom_append`).
-/

namespace CompactShell.Log

variable {find : Finder} {before : Option Char}

/-- The character in front of what stands behind a text. -/
def lastOr (before : Option Char) : List Char → Option Char
  | [] => before
  | c :: text => lastOr (some c) text

theorem lastOr_concat (before : Option Char) (text : List Char) (c : Char) :
    lastOr before (text ++ [c]) = some c := by
  induction text generalizing before with
  | nil => rfl
  | cons d text ih => exact ih (some d)

/-- What belongs to a secret that is replaced already is passed over. -/
theorem replaceFrom_length (text rest : List Char) :
    replaceFrom find text.length before (text ++ rest) =
      replaceFrom find 0 (lastOr before text) rest := by
  induction text generalizing before with
  | nil => rfl
  | cons c text ih => exact ih

/-- A secret is shown in its place, and the replacing goes on behind it. -/
theorem replaceFrom_of_found {text rest shown : List Char} (hne : text ≠ [])
    (h : find before (text ++ rest) = some ⟨shown, text.length⟩) :
    replaceFrom find 0 before (text ++ rest) =
      shown ++ replaceFrom find 0 (lastOr before text) rest := by
  cases text with
  | nil => exact absurd rfl hne
  | cons c text =>
    rw [List.cons_append] at h ⊢
    rw [replaceFrom, h]
    show shown ++ replaceFrom find text.length (some c) (text ++ rest) = _
    rw [replaceFrom_length]
    rfl

/-- No secret that starts in the text reaches over its end, whatever stands behind. -/
def IsClosed (find : Finder) (text : List Char) : Prop :=
  ∀ front back, text = front ++ back → back ≠ [] → ∀ before rest,
    find before (back ++ rest) = find before back ∧
      ∀ finding, find before back = some finding → finding.length ≤ back.length

theorem isClosed_nil (find : Finder) : IsClosed find [] := by
  intro front back h hne
  exact absurd (List.append_eq_nil_iff.1 h.symm).2 hne

theorem IsClosed.tail {c : Char} {text : List Char} (h : IsClosed find (c :: text)) :
    IsClosed find text := by
  intro front back htext
  exact h (c :: front) back (by rw [htext, List.cons_append])

/-- **A closed part is replaced by itself.** -/
theorem replaceFrom_append {text : List Char} (h : IsClosed find text) {skip : Nat}
    (hskip : skip ≤ text.length) (before : Option Char) (rest : List Char) :
    replaceFrom find skip before (text ++ rest) =
      replaceFrom find skip before text ++ replaceFrom find 0 (lastOr before text) rest := by
  -- the bound on `skip` is what each step hands on: nothing is passed over behind the text
  induction text generalizing skip before with
  | nil =>
    have hzero : skip = 0 := Nat.le_zero.1 hskip
    rw [hzero]
    rfl
  | cons c text ih =>
    cases skip with
    | succ skip => exact ih h.tail (Nat.le_of_succ_le_succ hskip) (some c)
    | zero =>
      obtain ⟨hsame, hlength⟩ := h [] (c :: text) rfl (List.cons_ne_nil _ _) before rest
      rw [List.cons_append] at hsame ⊢
      rw [replaceFrom, replaceFrom, hsame]
      cases hfind : find before (c :: text) with
      | none =>
        have hrest := ih h.tail (Nat.zero_le _) (some c)
        dsimp only
        rw [hrest]
        rfl
      | some finding =>
        have hfound := hlength finding hfind
        rw [List.length_cons] at hfound
        have hleft : finding.length - 1 ≤ text.length := by omega
        have hrest := ih h.tail hleft (some c)
        dsimp only
        rw [hrest, List.append_assoc]
        rfl

end CompactShell.Log
