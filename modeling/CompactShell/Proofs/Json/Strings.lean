import CompactShell.Json.String
import CompactShell.Json.Writer

/-!
# Strings are read as they were written

Every character is written as itself or as an escape, and reading what was written for a character
gives the character back and goes on behind it (`stringFrom_writeChar`). An escape of four digits is
only read if one more character follows. Inside a string one always does, since at least the closing
quote is still to come.
-/

namespace CompactShell.Json

open Text

/-! ## Hexadecimal digits -/

theorem hexValue?_digitChar {n : Nat} (h : n < 16) : hexValue? (Nat.digitChar n) = some n := by
  have hall : ∀ n < 16, hexValue? (Nat.digitChar n) = some n := by decide
  exact hall n h

/-- Four digits write a number of sixteen bits. -/
theorem hexCode?_hexDigits {n : Nat} (h : n < 0x10000) (c : Char) (rest : List Char) :
    hexCode? (hexDigits 4 n ++ c :: rest) = some n := by
  have h0 : hexValue? (Nat.digitChar (n % 16)) = some (n % 16) :=
    hexValue?_digitChar (Nat.mod_lt _ (by decide))
  have h1 : hexValue? (Nat.digitChar (n / 16 % 16)) = some (n / 16 % 16) :=
    hexValue?_digitChar (Nat.mod_lt _ (by decide))
  have h2 : hexValue? (Nat.digitChar (n / 16 / 16 % 16)) = some (n / 16 / 16 % 16) :=
    hexValue?_digitChar (Nat.mod_lt _ (by decide))
  have h3 : hexValue? (Nat.digitChar (n / 16 / 16 / 16 % 16)) = some (n / 16 / 16 / 16 % 16) :=
    hexValue?_digitChar (Nat.mod_lt _ (by decide))
  have hsum : ((n / 16 / 16 / 16 % 16 * 16 + n / 16 / 16 % 16) * 16 + n / 16 % 16) * 16 + n % 16 =
      n := by omega
  simp only [hexDigits, List.nil_append, List.cons_append, hexCode?, h0, h1, h2, h3]
  exact congrArg some hsum

/-! ## Escapes -/

/-- A character is no half of a surrogate pair. -/
theorem toNat_lt_or_lt (c : Char) : c.toNat < 0xD800 ∨ 0xDFFF < c.toNat := by
  have hvalid : c.toNat < 0xD800 ∨ 0xDFFF < c.toNat ∧ c.toNat < 0x110000 := c.valid
  omega

theorem isHighSurrogate_toNat (c : Char) : isHighSurrogate c.toNat = false := by
  have hc := toNat_lt_or_lt c
  simp only [isHighSurrogate, Bool.and_eq_false_iff, decide_eq_false_iff_not]
  omega

theorem charOfCode_toNat (c : Char) : charOfCode c.toNat = c := by
  have hc := toNat_lt_or_lt c
  have hlow : isLowSurrogate c.toNat = false := by
    simp only [isLowSurrogate, Bool.and_eq_false_iff, decide_eq_false_iff_not]
    omega
  rw [charOfCode, isHighSurrogate_toNat, hlow, Bool.or_false, if_neg Bool.false_ne_true,
    Char.ofNat_toNat]

/-- A character of sixteen bits is read from its code. -/
theorem unicodeEscape_code {c : Char} (h : c.toNat < 0x10000) (d : Char) (rest : List Char) :
    unicodeEscape (hexDigits 4 c.toNat ++ d :: rest) = .ok (c, 4) := by
  rw [unicodeEscape, hexCode?_hexDigits h]
  simp only [isHighSurrogate_toNat, charOfCode_toNat]

/-- The code of a pair of surrogates. -/
def pairCode (high low : Nat) : Nat :=
  0x10000 + (high - 0xD800) * 0x400 + (low - 0xDC00)

/-- Two surrogates behind each other are read as one character. -/
theorem unicodeEscape_pair {high low : Nat} (hhigh : isHighSurrogate high = true)
    (hlow : isLowSurrogate low = true) (d : Char) (rest : List Char) :
    unicodeEscape (hexDigits 4 high ++ '\\' :: 'u' :: (hexDigits 4 low ++ d :: rest)) =
      .ok (Char.ofNat (pairCode high low), 10) := by
  have hhigh' : high < 0x10000 := by
    simp only [isHighSurrogate, Bool.and_eq_true, decide_eq_true_eq] at hhigh
    omega
  have hlow' : low < 0x10000 := by
    simp only [isLowSurrogate, Bool.and_eq_true, decide_eq_true_eq] at hlow
    omega
  have hdrop (more : List Char) : (hexDigits 4 high ++ more).drop 4 = more :=
    List.drop_left' (length_hexDigits 4 high)
  have hlen : ¬ (hexDigits 4 low ++ d :: rest).length < 5 := by
    rw [List.length_append, length_hexDigits, List.length_cons]
    omega
  rw [unicodeEscape, hexCode?_hexDigits hhigh', hdrop]
  simp only [hhigh]
  rw [if_neg hlen, hexCode?_hexDigits hlow']
  simp only [hlow, if_true]
  rfl

theorem isHighSurrogate_add {n : Nat} (h : n < 0x400) : isHighSurrogate (0xD800 + n) = true := by
  simp only [isHighSurrogate, Bool.and_eq_true, decide_eq_true_eq]
  omega

theorem isLowSurrogate_add {n : Nat} (h : n < 0x400) : isLowSurrogate (0xDC00 + n) = true := by
  simp only [isLowSurrogate, Bool.and_eq_true, decide_eq_true_eq]
  omega

theorem pairCode_add (high low : Nat) :
    pairCode (0xD800 + high) (0xDC00 + low) = 0x10000 + high * 0x400 + low := by
  unfold pairCode
  omega

/-- A character beyond sixteen bits is read from its two surrogates. -/
theorem unicodeEscape_surrogates {c : Char} (h : 0x10000 ≤ c.toNat) (d : Char)
    (rest : List Char) :
    unicodeEscape (hexDigits 4 (0xD800 + (c.toNat - 0x10000) / 0x400) ++
      '\\' :: 'u' :: (hexDigits 4 (0xDC00 + (c.toNat - 0x10000) % 0x400) ++ d :: rest)) =
        .ok (c, 10) := by
  have hvalid : c.toNat < 0xD800 ∨ 0xDFFF < c.toNat ∧ c.toNat < 0x110000 := c.valid
  have hhigh : (c.toNat - 0x10000) / 0x400 < 0x400 := by omega
  have hlow : (c.toNat - 0x10000) % 0x400 < 0x400 := Nat.mod_lt _ (by decide)
  have hcode : 0x10000 + (c.toNat - 0x10000) / 0x400 * 0x400 + (c.toNat - 0x10000) % 0x400 =
      c.toNat := by omega
  rw [unicodeEscape_pair (isHighSurrogate_add hhigh) (isLowSurrogate_add hlow), pairCode_add,
    hcode, Char.ofNat_toNat]

/-! ## Characters -/

/-- The character is ASCII and no control. -/
def IsVisible (c : Char) : Prop :=
  0x20 ≤ c.toNat ∧ c.toNat < 0x7F

instance : DecidablePred IsVisible :=
  fun _ => inferInstanceAs (Decidable (_ ∧ _))

/-- **What is written for a character**: an escape of one letter, the character itself, an escape of
four digits, or two of them. -/
theorem writeChar_cases (c : Char) :
    (∃ letter, writeChar c = ['\\', letter] ∧ shortEscape? letter = some c ∧ letter ≠ 'u' ∧
        IsVisible letter) ∨
      (writeChar c = [c] ∧ c ≠ '"' ∧ c ≠ '\\' ∧ IsVisible c) ∨
      (writeChar c = writeCode c.toNat ∧ c.toNat < 0x10000) ∨
      (writeChar c = writeCode (0xD800 + (c.toNat - 0x10000) / 0x400) ++
          writeCode (0xDC00 + (c.toNat - 0x10000) % 0x400) ∧ 0x10000 ≤ c.toNat) := by
  unfold writeChar
  by_cases hquote : c = '"'
  · rw [if_pos hquote]
    exact .inl ⟨'"', rfl, by rw [hquote]; rfl, by decide, by decide⟩
  rw [if_neg hquote]
  by_cases hback : c = '\\'
  · rw [if_pos hback]
    exact .inl ⟨'\\', rfl, by rw [hback]; rfl, by decide, by decide⟩
  rw [if_neg hback]
  by_cases hnewline : c = '\n'
  · rw [if_pos hnewline]
    exact .inl ⟨'n', rfl, by rw [hnewline]; rfl, by decide, by decide⟩
  rw [if_neg hnewline]
  by_cases hreturn : c = '\r'
  · rw [if_pos hreturn]
    exact .inl ⟨'r', rfl, by rw [hreturn]; rfl, by decide, by decide⟩
  rw [if_neg hreturn]
  by_cases htab : c = '\t'
  · rw [if_pos htab]
    exact .inl ⟨'t', rfl, by rw [htab]; rfl, by decide, by decide⟩
  rw [if_neg htab]
  by_cases hfeed : c = '\x0c'
  · rw [if_pos hfeed]
    exact .inl ⟨'f', rfl, by rw [hfeed]; rfl, by decide, by decide⟩
  rw [if_neg hfeed]
  by_cases hspace : c = '\x08'
  · rw [if_pos hspace]
    exact .inl ⟨'b', rfl, by rw [hspace]; rfl, by decide, by decide⟩
  rw [if_neg hspace]
  by_cases hplain : 0x20 ≤ c.toNat ∧ c.toNat < 0x7F
  · rw [if_pos hplain]
    exact .inr (.inl ⟨rfl, hquote, hback, hplain⟩)
  rw [if_neg hplain]
  by_cases hcode : c.toNat < 0x10000
  · rw [if_pos hcode]
    exact .inr (.inr (.inl ⟨rfl, hcode⟩))
  · rw [if_neg hcode]
    exact .inr (.inr (.inr ⟨rfl, Nat.not_lt.1 hcode⟩))

/-! ## Strings -/

/-- The characters of an escape are passed over. -/
theorem stringFrom_skip (opening : Nat) (lead rest : List Char) :
    stringFrom opening lead.length (lead ++ rest) = stringFrom opening 0 rest := by
  induction lead with
  | nil => rfl
  | cons c lead ih =>
    rw [List.cons_append, List.length_cons, stringFrom]
    exact ih

/-- What is read behind a character, with the character in front. -/
def readBehind (c : Char) (rest : Read (List Char)) : Read (List Char) :=
  rest.map fun (text, rest) => (c :: text, rest)

theorem stringFrom_escape {opening : Nat} (lead : List Char) {rest : List Char} {c : Char}
    (h : escape opening (lead ++ rest) = .ok (c, lead.length)) :
    stringFrom opening 0 ('\\' :: (lead ++ rest)) = readBehind c (stringFrom opening 0 rest) := by
  rw [stringFrom, if_neg (by decide), if_pos rfl, h]
  simp only [stringFrom_skip]
  rfl

/-- **What is written for a character is read as the character.** -/
theorem stringFrom_writeChar (opening : Nat) (c : Char) {rest : List Char} (hrest : rest ≠ []) :
    stringFrom opening 0 (writeChar c ++ rest) = readBehind c (stringFrom opening 0 rest) := by
  obtain ⟨d, rest, rfl⟩ := List.exists_cons_of_ne_nil hrest
  rcases writeChar_cases c with ⟨letter, hwrite, hletter, hu, -⟩ | ⟨hwrite, hquote, hback, hplain⟩ |
    ⟨hwrite, hcode⟩ | ⟨hwrite, hcode⟩
  · rw [hwrite]
    refine stringFrom_escape [letter] ?_
    rw [List.singleton_append, escape, hletter]
    · rfl
    · exact hu
  · rw [hwrite, List.singleton_append, stringFrom, if_neg hquote, if_neg hback,
      if_neg (Nat.not_lt.2 hplain.1)]
    rfl
  · rw [hwrite]
    refine stringFrom_escape ('u' :: hexDigits 4 c.toNat) ?_
    rw [List.cons_append, escape, unicodeEscape_code hcode, List.length_cons, length_hexDigits]
    rfl
  · have hread := unicodeEscape_surrogates hcode d rest
    rw [hwrite]
    generalize 0xD800 + (c.toNat - 0x10000) / 0x400 = high at hread ⊢
    generalize 0xDC00 + (c.toNat - 0x10000) % 0x400 = low at hread ⊢
    have hlead : writeCode high ++ writeCode low ++ d :: rest =
        '\\' :: (('u' :: (hexDigits 4 high ++ '\\' :: 'u' :: hexDigits 4 low)) ++ d :: rest) := by
      simp only [writeCode, List.cons_append, List.append_assoc]
    rw [hlead]
    refine stringFrom_escape _ ?_
    rw [List.cons_append, List.append_assoc, List.cons_append, List.cons_append, escape, hread,
      List.length_cons, List.length_append, List.length_cons, List.length_cons, length_hexDigits,
      length_hexDigits]
    rfl

/-- **A string is read as it was written**, up to its closing quote. -/
theorem stringFrom_flatMap_writeChar (opening : Nat) (text rest : List Char) :
    stringFrom opening 0 (text.flatMap writeChar ++ '"' :: rest) = .ok (text, rest) := by
  induction text with
  | nil => rfl
  | cons c text ih =>
    have hne : text.flatMap writeChar ++ '"' :: rest ≠ [] := by simp
    rw [List.flatMap_cons, List.append_assoc, stringFrom_writeChar opening c hne, ih]
    rfl

theorem string_writeString (text : String) (rest : List Char) :
    string (text.toList.flatMap writeChar ++ '"' :: rest) = .ok (text, rest) := by
  rw [string, stringFrom_flatMap_writeChar]
  show Except.ok (String.ofList text.toList, rest) = _
  rw [String.ofList_toList]

/-! ## One line of ASCII -/

theorem isVisible_of_mem_hexDigits {width n : Nat} {c : Char} (h : c ∈ hexDigits width n) :
    IsVisible c := by
  induction width generalizing n with
  | zero => cases h
  | succ width ih =>
    rw [hexDigits, List.mem_append, List.mem_singleton] at h
    rcases h with h | rfl
    · exact ih h
    · have hall : ∀ n < 16, IsVisible (Nat.digitChar n) := by decide
      exact hall _ (Nat.mod_lt n (by decide))

theorem isVisible_of_mem_writeCode {n : Nat} {c : Char} (h : c ∈ writeCode n) : IsVisible c := by
  rw [writeCode, List.mem_cons, List.mem_cons] at h
  rcases h with rfl | rfl | h
  · decide
  · decide
  · exact isVisible_of_mem_hexDigits h

/-- Nothing that is written for a character breaks the line. -/
theorem isVisible_of_mem_writeChar {c d : Char} (h : d ∈ writeChar c) : IsVisible d := by
  rcases writeChar_cases c with ⟨letter, hwrite, -, -, hletter⟩ | ⟨hwrite, -, -, hplain⟩ |
    ⟨hwrite, -⟩ | ⟨hwrite, -⟩
  · rw [hwrite, List.mem_cons, List.mem_singleton] at h
    rcases h with rfl | rfl
    · decide
    · exact hletter
  · rw [hwrite, List.mem_singleton] at h
    exact h ▸ hplain
  · rw [hwrite] at h
    exact isVisible_of_mem_writeCode h
  · rw [hwrite] at h
    rcases List.mem_append.1 h with h | h
    · exact isVisible_of_mem_writeCode h
    · exact isVisible_of_mem_writeCode h

theorem isVisible_of_mem_writeString {text : List Char} {c : Char} (h : c ∈ writeString text) :
    IsVisible c := by
  rw [writeString, List.cons_append, List.mem_cons, List.mem_append, List.mem_singleton,
    List.mem_flatMap] at h
  rcases h with rfl | ⟨d, -, hd⟩ | rfl
  · decide
  · exact isVisible_of_mem_writeChar hd
  · decide

end CompactShell.Json
