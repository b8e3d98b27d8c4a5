/-!
# Classes of characters

A class of characters is a table of code point ranges. The tables of this folder follow the
Unicode character database, version 14; each is read through `covers`, and the classes that the
scanners ask about most often answer for ASCII without looking at their table.
-/

namespace CompactShell.Text

/-- Some range of the table, both ends included, holds the character's code point. -/
def covers (table : List (Nat × Nat)) (c : Char) : Bool :=
  table.any fun range => range.1 ≤ c.toNat && c.toNat ≤ range.2

theorem covers_iff {table : List (Nat × Nat)} {c : Char} :
    covers table c = true ↔ ∃ range ∈ table, range.1 ≤ c.toNat ∧ c.toNat ≤ range.2 := by
  simp [covers]

/-- Tables whose ranges do not meet hold no character in common. -/
theorem not_covers_of_apart {table other : List (Nat × Nat)}
    (h : table.all (fun a => other.all fun b => a.2 < b.1 || b.2 < a.1) = true) {c : Char}
    (hc : covers table c = true) : covers other c = false := by
  rw [Bool.eq_false_iff, ne_eq, covers_iff]
  intro hboth
  obtain ⟨b, hb, hlow, hhigh⟩ := hboth
  obtain ⟨a, ha, halow, hahigh⟩ := covers_iff.1 hc
  have hapart := List.all_eq_true.1 (List.all_eq_true.1 h a ha) b hb
  simp only [Bool.or_eq_true, decide_eq_true_eq] at hapart
  omega

theorem isAlpha_iff {c : Char} :
    c.isAlpha = true ↔ covers [(65, 90), (97, 122)] c = true := by
  have hupper : c.isUpper = true ↔ 65 ≤ c.val ∧ c.val ≤ 90 := decide_eq_true_iff
  have hlower : c.isLower = true ↔ 97 ≤ c.val ∧ c.val ≤ 122 := by
    show (decide (97 ≤ c.val) && decide (c.val ≤ 122)) = true ↔ _
    rw [Bool.and_eq_true, decide_eq_true_eq, decide_eq_true_eq]
  show (c.isUpper || c.isLower) = true ↔ _
  rw [Bool.or_eq_true, hupper, hlower, covers_iff]
  simp only [UInt32.le_iff_toNat_le, List.mem_cons, List.not_mem_nil, or_false,
    exists_eq_or_imp, exists_eq_left]
  exact Iff.rfl

theorem isAlphanum_iff {c : Char} :
    c.isAlphanum = true ↔ covers [(48, 57), (65, 90), (97, 122)] c = true := by
  have hdigit : c.isDigit = true ↔ 48 ≤ c.toNat ∧ c.toNat ≤ 57 := by
    simp only [Char.isDigit, Bool.and_eq_true, decide_eq_true_eq, UInt32.le_iff_toNat_le]
    exact Iff.rfl
  show (c.isAlpha || c.isDigit) = true ↔ _
  rw [Bool.or_eq_true, isAlpha_iff, hdigit, covers_iff, covers_iff, or_comm]
  simp only [List.mem_cons, List.not_mem_nil, or_false, exists_eq_or_imp, exists_eq_left]

/-! ## Runs of a class -/

section Runs

variable {p : Char → Bool} {c : Char}

/-- A character outside a class ends the run of the class in front of it. -/
theorem takeWhile_append_cons (hc : p c = false) (text rest : List Char) :
    (text ++ c :: rest).takeWhile p = text.takeWhile p := by
  induction text with
  | nil =>
    rw [List.nil_append, List.takeWhile_cons, hc]
    rfl
  | cons d text ih => rw [List.cons_append, List.takeWhile_cons, List.takeWhile_cons, ih]

theorem dropWhile_append_cons (hc : p c = false) (text rest : List Char) :
    (text ++ c :: rest).dropWhile p = text.dropWhile p ++ c :: rest := by
  induction text with
  | nil =>
    rw [List.nil_append, List.dropWhile_cons, hc]
    rfl
  | cons d text ih =>
    rw [List.cons_append, List.dropWhile_cons, List.dropWhile_cons, ih]
    split
    · rfl
    · rfl

end Runs

end CompactShell.Text
