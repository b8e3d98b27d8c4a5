import CompactShell.Json.Numeral

/-!
# Whole numbers are read as they were written

The digits of a number are read as the number (`unsignedNumber?_toDigits`) where nothing behind them
could go on with it: no digit, no point and no power mark.
-/

namespace CompactShell.Json

/-- Nothing at the start of the text could go on with a number. -/
def IsNumberEnd (rest : List Char) : Prop :=
  ∀ c ∈ rest.head?, c.isDigit = false ∧ c ≠ '.' ∧ c ≠ 'e' ∧ c ≠ 'E'

theorem isNumberEnd_nil : IsNumberEnd [] := by
  intro c hc
  cases hc

theorem IsNumberEnd.fractionDigits {rest : List Char} (h : IsNumberEnd rest) :
    fractionDigits rest = ([], rest) := by
  cases rest with
  | nil => rfl
  | cons c rest =>
    have hpoint : c ≠ '.' := (h c rfl).2.1
    unfold Json.fractionDigits
    split
    · rename_i heq
      exact absurd (List.cons.inj heq).1 hpoint
    · rfl

theorem IsNumberEnd.powerOfTen? {rest : List Char} (h : IsNumberEnd rest) :
    powerOfTen? rest = none := by
  cases rest with
  | nil => rfl
  | cons c rest =>
    obtain ⟨-, -, hlower, hupper⟩ := h c rfl
    have hmark : (decide (c = 'e') || decide (c = 'E')) = false := by
      rw [decide_eq_false hlower, decide_eq_false hupper, Bool.or_false]
    rw [Json.powerOfTen?, hmark, if_neg Bool.false_ne_true]

theorem isDigit_of_mem_toDigits {n : Nat} {c : Char} (h : c ∈ Nat.toDigits 10 n) :
    c.isDigit = true :=
  Nat.isDigit_of_mem_toDigits (by decide) (by decide) h

theorem ne_of_isDigit {c d : Char} (hc : c.isDigit = true) (hd : d.isDigit = false) : c ≠ d := by
  rintro rfl
  rw [hc] at hd
  cases hd

theorem natOfDigits_toDigits (n : Nat) : natOfDigits (Nat.toDigits 10 n) = n :=
  Nat.ofDigitChars_toDigits (by decide) (by decide)

/-- Only zero is written with a zero in front. -/
theorem toDigits_eq_cons {n : Nat} (h : n ≠ 0) :
    ∃ c digits, Nat.toDigits 10 n = c :: digits ∧ c ≠ '0' := by
  induction n using Nat.strongRecOn with
  | ind n ih =>
    by_cases hn : n < 10
    · have hall : ∀ n < 10, n ≠ 0 → Nat.digitChar n ≠ '0' := by decide
      exact ⟨Nat.digitChar n, [], Nat.toDigits_of_lt_base hn, hall n hn h⟩
    · obtain ⟨c, digits, hdigits, hc⟩ := ih (n / 10) (by omega) (by omega)
      rw [Nat.toDigits_of_base_le (by decide) (Nat.not_lt.1 hn), hdigits]
      exact ⟨c, digits ++ [Nat.digitChar (n % 10)], rfl, hc⟩

/-- The text does not go on with a digit. -/
def EndsDigits (rest : List Char) : Prop :=
  ∀ c ∈ rest.head?, c.isDigit = false

/-- Digits that start with no zero, unless it is the only one. -/
structure IsWholePart (digits : List Char) : Prop where
  isDigit : ∀ c ∈ digits, c.isDigit = true
  head : digits = ['0'] ∨ ∃ c more, digits = c :: more ∧ c ≠ '0'

theorem IsNumberEnd.endsDigits {rest : List Char} (h : IsNumberEnd rest) : EndsDigits rest :=
  fun c hc => (h c hc).1

theorem endsDigits_cons {c : Char} (h : c.isDigit = false) (rest : List Char) :
    EndsDigits (c :: rest) := by
  intro d hd
  obtain rfl := Option.some.inj hd
  exact h

/-- Digits are taken up to where they end. -/
theorem takeWhile_digits {digits rest : List Char} (hd : ∀ c ∈ digits, c.isDigit = true)
    (hr : EndsDigits rest) :
    (digits ++ rest).takeWhile Char.isDigit = digits ∧
      (digits ++ rest).dropWhile Char.isDigit = rest := by
  rw [List.takeWhile_append_of_pos hd, List.dropWhile_append_of_pos hd]
  cases rest with
  | nil => simp
  | cons c rest => simp [hr c rfl]

theorem wholeDigits?_append {digits rest : List Char} (h : IsWholePart digits)
    (hr : EndsDigits rest) : wholeDigits? (digits ++ rest) = some (digits, rest) := by
  rcases h.head with rfl | ⟨c, more, rfl, hc⟩
  · rfl
  · obtain ⟨htake, hdrop⟩ := takeWhile_digits h.isDigit hr
    unfold wholeDigits?
    split
    · rename_i heq
      exact absurd (List.cons.inj heq).1 hc
    · rw [htake, hdrop]

theorem isWholePart_toDigits (n : Nat) : IsWholePart (Nat.toDigits 10 n) := by
  refine ⟨fun c => isDigit_of_mem_toDigits, ?_⟩
  by_cases hn : n = 0
  · exact .inl (hn ▸ rfl)
  · exact .inr (toDigits_eq_cons hn)

/-- The digits of a number are read as the number. -/
theorem unsignedNumber?_toDigits (negative : Bool) {n : Nat}
    (hsize : (Nat.toDigits 10 n).length ≤ maxDigits) {rest : List Char} (h : IsNumberEnd rest) :
    unsignedNumber? negative (Nat.toDigits 10 n ++ rest) =
      some (.ok (.int (if negative then -(n : Int) else n), rest)) := by
  rw [unsignedNumber?, wholeDigits?_append (isWholePart_toDigits n) h.endsDigits, Option.map_some]
  simp only [h.fractionDigits, h.powerOfTen?, List.isEmpty_nil, Bool.not_true]
  rw [if_neg Bool.false_ne_true, if_neg (Nat.not_lt.2 hsize), natOfDigits_toDigits]

end CompactShell.Json
