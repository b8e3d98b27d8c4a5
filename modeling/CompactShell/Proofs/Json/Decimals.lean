import CompactShell.Number.Shortest
import CompactShell.Proofs.Json.Numbers

/-!
# Decimals are read as numbers

A number with a fraction is written as a whole part, a point and more digits, or with a power of ten
(`isReal_text`). Either way all of it is read as one number (`IsReal.exists_unsignedNumber?`). That
the number is the same again is not said here.
-/

namespace CompactShell.Json

open Number

/-! ## The parts of a number -/

theorem fractionDigits_append {digits rest : List Char} (hne : digits ≠ [])
    (hd : ∀ c ∈ digits, c.isDigit = true) (hr : EndsDigits rest) :
    fractionDigits ('.' :: (digits ++ rest)) = (digits, rest) := by
  obtain ⟨htake, hdrop⟩ := takeWhile_digits hd hr
  rw [fractionDigits, htake, hdrop]
  split
  · exact absurd rfl hne
  · rfl

theorem exists_powerOfTen? {sign : Char} (hs : sign = '-' ∨ sign = '+') {digits : List Char}
    (hne : digits ≠ []) (hd : ∀ c ∈ digits, c.isDigit = true) :
    ∃ power, ∀ rest, EndsDigits rest →
      powerOfTen? ('e' :: sign :: (digits ++ rest)) = some (power, rest) := by
  obtain ⟨c, more, rfl⟩ := List.exists_cons_of_ne_nil hne
  rcases hs with rfl | rfl
  · refine ⟨-(natOfDigits (c :: more) : Int), fun rest hr => ?_⟩
    obtain ⟨htake, hdrop⟩ := takeWhile_digits hd hr
    simp only [powerOfTen?, decide_true, Bool.true_or, if_true, List.head?_cons, beq_self_eq_true,
      List.tail_cons, htake, hdrop]
  · refine ⟨(natOfDigits (c :: more) : Int), fun rest hr => ?_⟩
    obtain ⟨htake, hdrop⟩ := takeWhile_digits hd hr
    simp only [powerOfTen?, decide_true, Bool.true_or, if_true, List.head?_cons, beq_self_eq_true,
      Bool.or_true, List.tail_cons, htake, hdrop]
    rfl

/-! ## Numbers with a fraction or a power -/

/-- A point and digits, or nothing. -/
def IsFraction (text : List Char) : Prop :=
  text = [] ∨ ∃ digits, text = '.' :: digits ∧ digits ≠ [] ∧ ∀ c ∈ digits, c.isDigit = true

/-- A power of ten with its sign, or nothing. -/
def IsPower (text : List Char) : Prop :=
  text = [] ∨ ∃ sign digits, text = 'e' :: sign :: digits ∧ (sign = '-' ∨ sign = '+') ∧
    digits ≠ [] ∧ ∀ c ∈ digits, c.isDigit = true

/-- The text writes a number that is not whole. -/
inductive IsReal : List Char → Prop where
  | intro {whole fraction power : List Char} : IsWholePart whole → IsFraction fraction →
      IsPower power → (fraction ≠ [] ∨ power ≠ []) → IsReal (whole ++ (fraction ++ power))

theorem EndsDigits.power {power rest : List Char} (hp : IsPower power) (hr : EndsDigits rest) :
    EndsDigits (power ++ rest) := by
  rcases hp with rfl | ⟨sign, digits, rfl, -⟩
  · exact hr
  · exact endsDigits_cons rfl _

/-- A fraction is read up to the power or the end of the number. -/
theorem exists_fractionDigits {fraction power : List Char} (hf : IsFraction fraction)
    (hp : IsPower power) :
    ∃ digits, (fraction ≠ [] → digits.isEmpty = false) ∧ ∀ rest, IsNumberEnd rest →
      fractionDigits (fraction ++ (power ++ rest)) = (digits, power ++ rest) := by
  rcases hf with rfl | ⟨digits, rfl, hne, hd⟩
  · refine ⟨[], fun hne => absurd rfl hne, fun rest hr => ?_⟩
    rcases hp with rfl | ⟨sign, digits, rfl, -⟩
    · exact hr.fractionDigits
    · rfl
  · exact ⟨digits, fun _ => List.isEmpty_eq_false_iff.2 hne,
      fun rest hr => fractionDigits_append hne hd (hr.endsDigits.power hp)⟩

/-- **Such a text is read as one number**, the same in front of anything that ends a number. -/
theorem IsReal.exists_unsignedNumber? {text : List Char} (h : IsReal text) (negative : Bool) :
    ∃ x, ∀ rest, IsNumberEnd rest →
      unsignedNumber? negative (text ++ rest) = some (.ok (.real x, rest)) := by
  obtain @⟨whole, fraction, power, hwhole, hfraction, hpower, hreal⟩ := h
  have hends : ∀ rest, IsNumberEnd rest → EndsDigits (fraction ++ (power ++ rest)) := by
    intro rest hr
    rcases hfraction with rfl | ⟨digits, rfl, -⟩
    · show EndsDigits (power ++ rest)
      exact hr.endsDigits.power hpower
    · exact endsDigits_cons rfl _
  obtain ⟨digits, hne, hdigits⟩ := exists_fractionDigits hfraction hpower
  rcases hpower with rfl | ⟨sign, powerDigits, rfl, hsign, hpne, hpd⟩
  · have hsome : digits.isEmpty = false := hne (hreal.resolve_right fun hp => hp rfl)
    refine ⟨.ofDecimal negative ⟨natOfDigits (whole ++ digits), -digits.length⟩, fun rest hr => ?_⟩
    rw [List.append_assoc, List.append_assoc, unsignedNumber?,
      wholeDigits?_append hwhole (hends rest hr), Option.map_some]
    simp only [hdigits rest hr]
    simp only [List.nil_append, hr.powerOfTen?, hsome, Bool.not_false, if_true]
  · obtain ⟨p, hp⟩ := exists_powerOfTen? hsign hpne hpd
    refine ⟨.ofDecimal negative ⟨natOfDigits (whole ++ digits), p - digits.length⟩,
      fun rest hr => ?_⟩
    rw [List.append_assoc, List.append_assoc, unsignedNumber?,
      wholeDigits?_append hwhole (hends rest hr), Option.map_some]
    simp only [hdigits rest hr]
    simp only [List.cons_append, hp rest hr.endsDigits]

/-! ## How decimals are written -/

/-- The significant digits of a number start as its digits do. -/
theorem exists_significantDigits {n : Nat} (h : n ≠ 0) :
    ∃ c more, significantDigits n = c :: more ∧ c ≠ '0' ∧
      ∀ d ∈ c :: more, d.isDigit = true := by
  obtain ⟨c, digits, hdigits, hc⟩ := toDigits_eq_cons h
  -- the first digit is no zero, so it is never stripped
  have hlast : ∃ kept, (digits.reverse ++ [c]).dropWhile (· == '0') = kept ++ [c] ∧
      ∀ d ∈ kept, d ∈ digits := by
    rw [List.dropWhile_append]
    split
    · exact ⟨[], by simp [hc], by simp⟩
    · exact ⟨_, rfl, fun d hd => List.mem_reverse.1 ((List.dropWhile_suffix _).subset hd)⟩
  obtain ⟨kept, hkept, hsub⟩ := hlast
  have hall : ∀ d ∈ c :: digits, d.isDigit = true := fun d hd =>
    isDigit_of_mem_toDigits (n := n) (hdigits ▸ hd)
  refine ⟨c, kept.reverse, ?_, hc, ?_⟩
  · rw [significantDigits, hdigits, List.reverse_cons, hkept, List.reverse_append]
    rfl
  · intro d hd
    rcases List.mem_cons.1 hd with rfl | hd
    · exact hall d (List.mem_cons_self ..)
    · exact hall d (List.mem_cons_of_mem _ (hsub d (List.mem_reverse.1 hd)))

/-- Zeros put to digits leave digits. -/
theorem isDigit_of_mem_append_zeros {digits : List Char} (h : ∀ c ∈ digits, c.isDigit = true)
    {n : Nat} {c : Char} (hc : c ∈ digits ∨ c ∈ List.replicate n '0') : c.isDigit = true := by
  rcases hc with hc | hc
  · exact h c hc
  · rw [List.eq_of_mem_replicate hc]
    rfl

theorem isReal_positional {c : Char} {more : List Char} (hc : c ≠ '0')
    (hd : ∀ d ∈ c :: more, d.isDigit = true) (places : Int) :
    IsReal (positional (c :: more) places) := by
  rw [positional]
  generalize hbefore : (c :: more ++ List.replicate (places.toNat - (c :: more).length) '0').take
    places.toNat = before
  generalize hafter : List.replicate (-places).toNat '0' ++ (c :: more).drop places.toNat = after
  have hwhole : IsWholePart (if before.isEmpty then ['0'] else before) := by
    cases hcount : places.toNat with
    | zero =>
      rw [hcount, List.take_zero] at hbefore
      subst hbefore
      exact ⟨by simp, .inl rfl⟩
    | succ count =>
      rw [hcount, List.cons_append, List.take_succ_cons] at hbefore
      subst hbefore
      refine ⟨fun d hmem => isDigit_of_mem_append_zeros hd (n := count + 1 - (more.length + 1)) ?_,
        .inr ⟨c, _, rfl, hc⟩⟩
      rcases List.mem_cons.1 hmem with rfl | hmem
      · exact .inl (List.mem_cons_self ..)
      · rcases List.mem_append.1 (List.mem_of_mem_take hmem) with hmem | hmem
        · exact .inl (List.mem_cons_of_mem _ hmem)
        · exact .inr hmem
  have hfraction : IsFraction ('.' :: if after.isEmpty then ['0'] else after) := by
    refine .inr ⟨_, rfl, ?_, ?_⟩
    · split
      · simp
      · rename_i hne
        simpa using hne
    · split
      · simp
      · intro d hmem
        rw [← hafter] at hmem
        refine isDigit_of_mem_append_zeros hd (n := (-places).toNat) ?_
        rcases List.mem_append.1 hmem with hmem | hmem
        · exact .inr hmem
        · exact .inl (List.mem_of_mem_drop hmem)
  have hreal := IsReal.intro hwhole hfraction (.inl rfl) (.inl (List.cons_ne_nil _ _))
  rwa [List.append_nil] at hreal

theorem isReal_scientific {c : Char} {more : List Char} (hc : c ≠ '0')
    (hd : ∀ d ∈ c :: more, d.isDigit = true) (power : Int) :
    IsReal (scientific (c :: more) power) := by
  have hwhole : IsWholePart [c] :=
    ⟨fun d hmem => hd d (List.mem_singleton.1 hmem ▸ List.mem_cons_self ..), .inr ⟨c, [], rfl, hc⟩⟩
  have hfraction : IsFraction (if more.isEmpty then [] else '.' :: more) := by
    split
    · exact .inl rfl
    · rename_i hne
      exact .inr ⟨more, rfl, by simpa using hne, fun d hmem => hd d (List.mem_cons_of_mem _ hmem)⟩
  have hsize : ∀ d ∈ Nat.toDigits 10 power.natAbs, d.isDigit = true := fun d =>
    isDigit_of_mem_toDigits
  have hpower : IsPower ('e' :: (if power < 0 then '-' else '+') ::
      (List.replicate (2 - (Nat.toDigits 10 power.natAbs).length) '0' ++
        Nat.toDigits 10 power.natAbs)) := by
    refine .inr ⟨_, _, rfl, ?_, ?_, fun d hmem => ?_⟩
    · split
      · exact .inl rfl
      · exact .inr rfl
    · exact List.append_ne_nil_of_right_ne_nil _ Nat.toDigits_ne_nil
    · exact isDigit_of_mem_append_zeros hsize (List.mem_append.1 hmem).symm
  exact .intro hwhole hfraction hpower (.inr (List.cons_ne_nil _ _))

/-- **A decimal is written as a number that is not whole**, even if its value is. -/
theorem isReal_text (decimal : Decimal) : IsReal decimal.text := by
  rw [Decimal.text]
  dsimp only
  split
  · rename_i hzero
    rw [hzero]
    have hwhole : IsWholePart ['0'] := ⟨by simp, .inl rfl⟩
    have hfraction : IsFraction ['.', '0'] := .inr ⟨['0'], rfl, by simp, by simp⟩
    exact .intro hwhole hfraction (.inl rfl) (.inl (List.cons_ne_nil _ _))
  · rename_i hzero
    obtain ⟨c, more, hdigits, hc, hd⟩ := exists_significantDigits hzero
    rw [hdigits]
    split
    · exact isReal_positional hc hd _
    · exact isReal_scientific hc hd _

/-- The first character of such a number is a digit. -/
theorem IsReal.exists_digit {text : List Char} (h : IsReal text) :
    ∃ c more, text = c :: more ∧ c.isDigit = true := by
  obtain @⟨whole, fraction, power, hwhole, -⟩ := h
  rcases hwhole.head with rfl | ⟨c, more, rfl, -⟩
  · exact ⟨'0', _, rfl, rfl⟩
  · exact ⟨c, _, rfl, hwhole.isDigit c (List.mem_cons_self ..)⟩

end CompactShell.Json
