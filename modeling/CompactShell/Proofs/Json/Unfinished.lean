import CompactShell.Proofs.Json.Taken
import CompactShell.Text.Class

/-!
# An object behind an unfinished text

A text may be broken off, and an object be written behind it. The two are then read as one text, and
each reader goes by how far it comes in the first of them (`Continues`). If it comes to its end
there, the object is left behind what it has read. Otherwise it meets the object. A comma, a colon
or a closing bracket would have to stand there, and the object is none of them. A value may stand
there, but then nothing closes what it is part of, if there is room for the object at all. In a
string, the first quote of the object is the closing one, and nothing goes on with the letter behind
it.

So the object is lost behind anything but white space (`readWithin_append_object`). The two are
refused only if the first of them was, or if it opens so many brackets that a fault inside them, or
the object, has no room.
-/

namespace CompactShell.Json

open Text

/-- The text of an object as it is written, without arrays and objects in it: its first name starts
with a letter, and the whole text is read as the value. -/
structure IsObjectText (object : List Char) (v : Value) : Prop where
  front : ∃ c rest, object = '\x7b' :: '"' :: c :: rest ∧ c.isAlpha = true
  read : ∀ room fuel, Room.Holds room 1 → object.length ≤ fuel →
    value room fuel object = .ok (v, [])

/-- How reading goes on where an object stands behind the text. A reading that ended in the text
ends there, and one that was refused there is refused. Otherwise it fails, or it ends inside the
object, in front of a letter, or there is no room for the object or for reporting the fault. -/
inductive Continues {α : Type} (object : List Char) (room : Room) (text : List Char) :
    Read α → Read α → Prop
  | done (a : α) (rest : List Char) :
      Continues object room text (.ok (a, rest)) (.ok (a, rest ++ object))
  | refused (refusal : Refusal) :
      Continues object room text (.error (.refused refusal)) (.error (.refused refusal))
  | malformed (first : Read α) (cause : Cause) (left : Nat) :
      Continues object room text first (.error (.malformed cause left))
  | inside (first : Read α) (a : α) {c : Char} (hc : c.isAlpha = true) (rest : List Char) :
      Continues object room text first (.ok (a, c :: rest))
  | full (first : Read α) (h : ¬ room.Holds (openings text + reportCalls)) (refusal : Refusal) :
      Continues object room text first (.error (.refused refusal))

section Going

variable {α β : Type} {object : List Char} {room inner : Room} {text whole : List Char}
  {first second : Read α}

theorem Continues.map (h : Continues object room text first second) (f : α → β) :
    Continues object room text (first.map fun (a, rest) => (f a, rest))
      (second.map fun (a, rest) => (f a, rest)) := by
  cases h with
  | done a rest => exact .done (f a) rest
  | refused refusal => exact .refused refusal
  | malformed _ cause left => exact .malformed _ cause left
  | inside _ a hc rest => exact .inside _ (f a) hc rest
  | full _ hfull refusal => exact .full _ hfull refusal

/-- The end of a text is read on as the whole text is. -/
theorem Continues.of_suffix (h : Continues object room text first second)
    (hsuffix : text <:+ whole) : Continues object room whole first second := by
  cases h with
  | done a rest => exact .done a rest
  | refused refusal => exact .refused refusal
  | malformed _ cause left => exact .malformed _ cause left
  | inside _ a hc rest => exact .inside _ a hc rest
  | full _ hfull refusal =>
    have hle := Nat.add_le_add_right (openings_le_of_suffix hsuffix) reportCalls
    exact .full _ (fun hholds => hfull (hholds.mono hle)) refusal

theorem IsMalformed.continues (h : IsMalformed second) (first : Read α) :
    Continues object room text first second := by
  obtain ⟨cause, left, rfl⟩ := h
  exact .malformed first cause left

/-- What goes on with the text that is left goes on in front of the object, if it does not go on
with a letter. -/
theorem Continues.andThen {next more : α → List Char → Read β}
    (h : Continues object room text first second)
    (hdone : ∀ a rest, first = .ok (a, rest) →
      Continues object room text (next a rest) (more a (rest ++ object)))
    (hinside : ∀ a c rest, c.isAlpha = true → IsMalformed (more a (c :: rest))) :
    Continues object room text (first.andThen next) (second.andThen more) := by
  cases h with
  | done a rest => exact hdone a rest rfl
  | refused refusal => exact .refused refusal
  | malformed first cause left => exact .malformed _ cause left
  | inside first a hc rest => exact (hinside a _ rest hc).continues _
  | full _ hfull refusal => exact .full _ hfull refusal

/-- A fault that is met behind the text is reported, or there is no room for that. -/
theorem Continues.reported (h : Continues object room text first second) :
    Continues object room text (reported room first) (reported room second) := by
  cases h with
  | done a rest => exact .done a rest
  | refused refusal => exact .refused refusal
  | malformed _ cause left =>
    rcases reported_malformed room cause left with hreport | ⟨hroom, hreport⟩
    · rw [hreport]
      exact .malformed _ cause left
    · rw [hreport]
      exact .full _ (fun hholds => hroom (hholds.mono (Nat.le_add_left ..))) .noCall
  | inside _ a hc rest => exact .inside _ a hc rest
  | full _ hfull refusal => exact .full _ hfull refusal

/-- What is read on inside a bracket is read on with it. -/
theorem continues_enter {c : Char} (hc : isOpening c = true) (nest : Nest)
    {inside longer : Room → Read α}
    (h : ∀ inner, Continues object inner text (inside inner) (longer inner)) :
    Continues object room (c :: text) (enter room nest inside) (enter room nest longer) := by
  cases hinner : room.inside? with
  | none =>
    rw [enter_eq_error hinner, enter_eq_error hinner]
    exact .refused _
  | some inner =>
    rw [enter_eq hinner, enter_eq hinner]
    have hinside := (h inner).reported
    generalize reported inner (inside inner) = first at hinside ⊢
    generalize reported inner (longer inner) = second at hinside ⊢
    cases hinside with
    | done a rest => exact .done a rest
    | refused refusal => exact .refused refusal
    | malformed _ cause left => exact .malformed _ cause left
    | inside _ a hc rest => exact .inside _ a hc rest
    | full _ hfull refusal =>
      refine .full _ (fun hholds => hfull ((Room.holds_succ_iff hinner).1 ?_)) refusal
      rwa [openings, List.countP_cons_of_pos hc, Nat.add_right_comm] at hholds

end Going

/-! ## Letters -/

theorem ne_of_isAlpha {c d : Char} (hc : c.isAlpha = true) (hd : d.isAlpha = false) : c ≠ d := by
  rintro rfl
  rw [hc] at hd
  cases hd

theorem skipGap_letter {c : Char} (hc : c.isAlpha = true) (rest : List Char) :
    skipGap (c :: rest) = c :: rest := by
  have hgap : isGap c = false := by
    simp only [isGap, Bool.or_eq_false_iff, decide_eq_false_iff_not]
    exact ⟨⟨⟨ne_of_isAlpha hc rfl, ne_of_isAlpha hc rfl⟩, ne_of_isAlpha hc rfl⟩,
      ne_of_isAlpha hc rfl⟩
  rw [skipGap, List.dropWhile_cons, hgap, if_neg Bool.false_ne_true]

theorem isMalformed_partsBehind_letter {α : Type} {close : Char} (hclose : close.isAlpha = false)
    (last : α) (more : List Char → Read α) {c : Char} (hc : c.isAlpha = true) (rest : List Char) :
    IsMalformed (partsBehind close last more (c :: rest)) := by
  rw [partsBehind, skipGap_letter hc]
  dsimp only
  rw [if_neg (ne_of_isAlpha hc hclose), if_neg (ne_of_isAlpha hc rfl)]
  exact ⟨_, _, rfl⟩

theorem isMalformed_memberBehind_letter (room : Room) (fuel : Nat) (name : String) {c : Char}
    (hc : c.isAlpha = true) (rest : List Char) :
    IsMalformed (memberBehind room fuel name (c :: rest)) := by
  rw [memberBehind, skipGap_letter hc]
  dsimp only
  rw [if_neg (ne_of_isAlpha hc rfl)]
  exact ⟨_, _, rfl⟩

/-! ## Escapes -/

theorem le_length_of_hexCode? {text : List Char} {code : Nat} (h : hexCode? text = some code) :
    5 ≤ text.length := by
  unfold hexCode? at h
  split at h
  · simp only [List.length_cons]
    omega
  · cases h

theorem hexValue?_of_hexCode? {text : List Char} {code : Nat} (h : hexCode? text = some code) :
    ∀ c ∈ text.take 4, hexValue? c ≠ none := by
  unfold hexCode? at h
  split at h
  · simp only [Option.bind_eq_bind, Option.bind_eq_some_iff] at h
    obtain ⟨_, ha, _, hb, _, hc, _, hd, -⟩ := h
    simp [ha, hb, hc, hd]
  · cases h

/-- A code that no second half follows is that of a character. -/
theorem unicodeEscape_single {text : List Char} {code : Nat} (hcode : hexCode? text = some code)
    (hsingle : ¬ (isHighSurrogate code = true ∧ ∃ second, text.drop 4 = '\\' :: 'u' :: second)) :
    unicodeEscape text = .ok (charOfCode code, 4) := by
  unfold unicodeEscape
  rw [hcode]
  dsimp only
  split
  · rename_i second hhigh hsecond
    exact absurd ⟨hhigh, second, hsecond⟩ hsingle
  · rfl

/-- What is read where a second half may follow: both halves, or the first one alone. -/
def pairEscape (high : Nat) (second : List Char) : Except Fault (Char × Nat) :=
  if second.length < 5 then .ok (charOfCode high, 4)
  else
    match hexCode? second with
    | none => .error (.malformed .badUnicodeEscape (second.length + 1))
    | some low =>
      if isLowSurrogate low then .ok (Char.ofNat (pairCode high low), 10)
      else .ok (charOfCode high, 4)

theorem unicodeEscape_pair_eq {text second : List Char} {code : Nat}
    (hcode : hexCode? text = some code) (hhigh : isHighSurrogate code = true)
    (hsecond : text.drop 4 = '\\' :: 'u' :: second) :
    unicodeEscape text = pairEscape code second := by
  rw [unicodeEscape, hcode]
  simp only [hhigh, hsecond]
  rfl

/-! ## Fractions -/

theorem fractionDigits_of_ne_point {text : List Char} (h : ∀ rest, text ≠ '.' :: rest) :
    fractionDigits text = ([], text) := by
  unfold fractionDigits
  split
  · exact absurd rfl (h _)
  · rfl

/-! ## Ends -/

theorem isMalformed_atEnd {v : Value} {rest : List Char} (h : skipGap rest ≠ []) :
    IsMalformed (Read.atEnd (.ok (v, rest))) := by
  dsimp only [Read.atEnd]
  split
  · rename_i hnil
    exact absurd hnil h
  · exact ⟨_, _, rfl⟩

section Object

variable {object : List Char} {v : Value} (hobject : IsObjectText object v)

include hobject

/-! ## Characters -/

/-- A class that the brace is not in has the same run in the text. -/
theorem takeWhile_append_object {p : Char → Bool} (hp : p '\x7b' = false) (text : List Char) :
    (text ++ object).takeWhile p = text.takeWhile p := by
  obtain ⟨c, rest, rfl, -⟩ := hobject.front
  exact takeWhile_append_cons hp text _

theorem dropWhile_append_object {p : Char → Bool} (hp : p '\x7b' = false) (text : List Char) :
    (text ++ object).dropWhile p = text.dropWhile p ++ object := by
  obtain ⟨c, rest, rfl, -⟩ := hobject.front
  exact dropWhile_append_cons hp text _

theorem skipGap_append_object (text : List Char) :
    skipGap (text ++ object) = skipGap text ++ object :=
  dropWhile_append_object hobject rfl text

/-- A character that is no brace stands at the start of both texts or of neither. -/
theorem append_object_eq_cons {d : Char} (hd : d ≠ '\x7b') {text rest : List Char}
    (h : text ++ object = d :: rest) : ∃ more, text = d :: more ∧ rest = more ++ object := by
  cases text with
  | nil =>
    obtain ⟨c, more, rfl, -⟩ := hobject.front
    exact absurd (List.cons.inj h).1.symm hd
  | cons c more =>
    obtain ⟨rfl, hrest⟩ := List.cons.inj h
    exact ⟨more, rfl, hrest.symm⟩

theorem append_object_ne_cons {d : Char} (hd : d ≠ '\x7b') {text : List Char}
    (h : ∀ rest, text ≠ d :: rest) (rest : List Char) : text ++ object ≠ d :: rest := by
  intro heq
  obtain ⟨more, hmore, -⟩ := append_object_eq_cons hobject hd heq
  exact h more hmore

theorem head?_append_object {d : Char} (hd : d ≠ '\x7b') (text : List Char) :
    ((text ++ object).head? == some d) = (text.head? == some d) := by
  cases text with
  | nil =>
    obtain ⟨c, rest, rfl, -⟩ := hobject.front
    exact beq_eq_false_iff_ne.2 fun h => hd (Option.some.inj h).symm
  | cons c rest => rfl

theorem startsWith_append_object {name : String} (hname : '\x7b' ∉ name.toList)
    (text : List Char) : startsWith name (text ++ object) = startsWith name text := by
  rw [Bool.eq_iff_iff, startsWith, startsWith, List.isPrefixOf_iff_prefix,
    List.isPrefixOf_iff_prefix]
  refine ⟨fun h => ?_, fun h => h.trans (List.prefix_append text object)⟩
  by_cases hlength : name.toList.length ≤ text.length
  · exact List.prefix_of_prefix_length_le h (List.prefix_append text object) hlength
  · -- a longer name would go on with the brace
    obtain ⟨c, rest, rfl, -⟩ := hobject.front
    have hbrace : text ++ ['\x7b'] <+: name.toList := by
      refine List.prefix_of_prefix_length_le ⟨'"' :: c :: rest, by simp⟩ h ?_
      rw [List.length_append, List.length_singleton]
      omega
    exact absurd (hbrace.subset (List.mem_append_right _ (List.mem_singleton_self _))) hname

/-! ## Numbers -/

theorem wholeDigits?_append_object (text : List Char) :
    wholeDigits? (text ++ object) =
      (wholeDigits? text).map fun (digits, rest) => (digits, rest ++ object) := by
  by_cases hzero : ∃ rest, text = '0' :: rest
  · obtain ⟨rest, rfl⟩ := hzero
    rfl
  · have hother : ∀ rest, text ≠ '0' :: rest := fun rest h => hzero ⟨rest, h⟩
    rw [wholeDigits?_of_ne_zero hother,
      wholeDigits?_of_ne_zero (append_object_ne_cons hobject (by decide) hother),
      takeWhile_append_object hobject rfl, dropWhile_append_object hobject rfl]
    split
    · rfl
    · rfl

theorem fractionDigits_append_object (text : List Char) :
    fractionDigits (text ++ object) =
      ((fractionDigits text).1, (fractionDigits text).2 ++ object) := by
  by_cases hpoint : ∃ rest, text = '.' :: rest
  · obtain ⟨rest, rfl⟩ := hpoint
    rw [List.cons_append, fractionDigits, fractionDigits, takeWhile_append_object hobject rfl,
      dropWhile_append_object hobject rfl]
    split
    · rfl
    · rfl
  · have hother : ∀ rest, text ≠ '.' :: rest := fun rest h => hpoint ⟨rest, h⟩
    rw [fractionDigits_of_ne_point hother,
      fractionDigits_of_ne_point (append_object_ne_cons hobject (by decide) hother)]

theorem powerOfTen?_append_object (text : List Char) :
    powerOfTen? (text ++ object) =
      (powerOfTen? text).map fun (power, rest) => (power, rest ++ object) := by
  cases text with
  | nil =>
    obtain ⟨c, rest, rfl, -⟩ := hobject.front
    rfl
  | cons mark rest =>
    have hunsigned : (if (rest.head? == some '-' || rest.head? == some '+') = true
          then (rest ++ object).tail else rest ++ object) =
        (if (rest.head? == some '-' || rest.head? == some '+') = true
          then rest.tail else rest) ++ object := by
      cases rest with
      | nil => rfl
      | cons c rest =>
        split
        · rfl
        · rfl
    rw [List.cons_append, powerOfTen?, powerOfTen?, head?_append_object hobject (by decide),
      head?_append_object hobject (by decide)]
    dsimp only
    rw [hunsigned, takeWhile_append_object hobject rfl, dropWhile_append_object hobject rfl]
    split
    · split
      · rfl
      · rfl
    · rfl

theorem unsignedNumber?_append_object (negative : Bool) (text : List Char) :
    unsignedNumber? negative (text ++ object) =
      (unsignedNumber? negative text).map fun result =>
        result.map fun (v, rest) => (v, rest ++ object) := by
  rw [unsignedNumber?, wholeDigits?_append_object hobject, unsignedNumber?]
  cases wholeDigits? text with
  | none => rfl
  | some read =>
    obtain ⟨whole, behind⟩ := read
    simp only [Option.map_some, fractionDigits_append_object hobject,
      powerOfTen?_append_object hobject]
    cases powerOfTen? (fractionDigits behind).2 with
    | some power => rfl
    | none =>
      dsimp only [Option.map_none]
      split
      · rfl
      · split
        · rfl
        · rfl

theorem named?_append_object (text : List Char) : named? (text ++ object) = named? text := by
  -- no name has a brace in it
  simp (disch := decide) only [named?, namedValues, List.find?_cons, List.find?_nil,
    startsWith_append_object hobject]

theorem scalar_continues (room : Room) {text : List Char} (hne : text ≠ []) :
    Continues object room text (scalar room text) (scalar room (text ++ object)) := by
  have hlonger := named?_append_object hobject text
  cases hnamed : named? text with
  | some named =>
    obtain ⟨rest, htext, hdrop⟩ := append_of_named? hnamed
    rw [scalar_of_named? room hnamed, scalar_of_named? room (hlonger.trans hnamed), hdrop, htext,
      List.append_assoc, ← String.length_toList, List.drop_left]
    unfold calling
    split
    · exact .done named.2 rest
    · exact .refused .noCall
  | none =>
    obtain ⟨c, rest, rfl⟩ := List.exists_cons_of_ne_nil hne
    have hunsigned : (if ((c :: rest).head? == some '-') = true
          then (c :: rest ++ object).tail else c :: rest ++ object) =
        (if ((c :: rest).head? == some '-') = true then (c :: rest).tail else c :: rest) ++
          object := by
      split
      · rfl
      · rfl
    rw [scalar_of_number room hnamed, scalar_of_number room (hlonger.trans hnamed), number, number,
      head?_append_object hobject (by decide), hunsigned, unsignedNumber?_append_object hobject]
    cases unsignedNumber? ((c :: rest).head? == some '-')
        (if ((c :: rest).head? == some '-') = true then (c :: rest).tail else c :: rest) with
    | none => exact .malformed _ _ _
    | some result =>
      cases result with
      | ok read => exact .done read.1 read.2
      | error fault =>
        cases fault with
        | malformed cause left => exact .malformed _ cause left
        | refused refusal => exact .refused refusal

/-! ## Strings -/

/-- Four digits of a longer text stand in the text. The character that has to follow them may be the
first one of the object. -/
theorem hexCode?_append_object {text : List Char} {code : Nat}
    (h : hexCode? (text ++ object) = some code) :
    4 ≤ text.length ∧ (text.length = 4 ∨ hexCode? text = some code) := by
  have hfour : 4 ≤ text.length := by
    by_contra hshort
    obtain ⟨c, rest, rfl, -⟩ := hobject.front
    obtain ⟨n, hn⟩ : ∃ n, 4 - text.length = n + 1 := ⟨3 - text.length, by omega⟩
    have hbrace : '\x7b' ∈ (text ++ '\x7b' :: '"' :: c :: rest).take 4 := by
      rw [List.take_append, hn, List.take_succ_cons]
      exact List.mem_append_right _ (List.mem_cons_self ..)
    exact hexValue?_of_hexCode? h '\x7b' hbrace rfl
  refine ⟨hfour, ?_⟩
  match text, hfour with
  | [_, _, _, _], _ => exact .inl rfl
  | _ :: _ :: _ :: _ :: _ :: _, _ => exact .inr h

/-- The second half of a pair stands in the text, six characters behind the start of the first. -/
theorem pairEscape_append_object {high : Nat} {text : List Char} {d : Char} {size : Nat}
    (h : pairEscape high (text ++ object) = .ok (d, size)) :
    size ≤ text.length + 6 ∧ (size = text.length + 6 ∨ pairEscape high text = .ok (d, size)) := by
  unfold pairEscape at h ⊢
  split at h
  · cases h
    rename_i hshort
    rw [List.length_append] at hshort
    exact ⟨by omega, .inr (if_pos (by omega))⟩
  · cases hhalf : hexCode? (text ++ object) with
    | none =>
      rw [hhalf] at h
      cases h
    | some low =>
      obtain ⟨hfour, hread⟩ := hexCode?_append_object hobject hhalf
      rw [hhalf] at h
      dsimp only at h
      by_cases hlow : isLowSurrogate low = true
      · rw [if_pos hlow] at h
        obtain ⟨rfl, rfl⟩ := Prod.mk.inj (Except.ok.inj h)
        refine ⟨by omega, hread.imp (by omega) fun hsecond => ?_⟩
        have hlong := le_length_of_hexCode? hsecond
        rw [if_neg (by omega), hsecond]
        exact if_pos hlow
      · rw [if_neg hlow] at h
        cases h
        refine ⟨by omega, .inr ?_⟩
        rcases hread with hend | hsecond
        · exact if_pos (by omega)
        · have hlong := le_length_of_hexCode? hsecond
          rw [if_neg (by omega), hsecond]
          exact if_neg hlow

theorem unicodeEscape_append_object {text : List Char} {d : Char} {size : Nat}
    (h : unicodeEscape (text ++ object) = .ok (d, size)) :
    size ≤ text.length ∧ (size = text.length ∨ unicodeEscape text = .ok (d, size)) := by
  cases hcode : hexCode? (text ++ object) with
  | none =>
    rw [unicodeEscape, hcode] at h
    cases h
  | some code =>
    obtain ⟨hfour, hread⟩ := hexCode?_append_object hobject hcode
    have hdrop : (text ++ object).drop 4 = text.drop 4 ++ object :=
      List.drop_append_of_le_length hfour
    by_cases hpair : isHighSurrogate code = true ∧
        ∃ second, (text ++ object).drop 4 = '\\' :: 'u' :: second
    · obtain ⟨hhigh, second, hsecond⟩ := hpair
      -- the second half starts in the text, so the text is longer than the first half
      obtain ⟨more, hmore, hbehind⟩ :=
        append_object_eq_cons hobject (by decide) (hdrop.symm.trans hsecond)
      obtain ⟨low, rfl, rfl⟩ := append_object_eq_cons hobject (by decide) hbehind.symm
      have hlength : text.length = low.length + 6 := by
        have htext := congrArg List.length hmore
        rw [List.length_drop, List.length_cons, List.length_cons] at htext
        omega
      have hfirst : hexCode? text = some code := hread.resolve_left (by omega)
      rw [unicodeEscape_pair_eq hcode hhigh hsecond] at h
      rw [unicodeEscape_pair_eq hfirst hhigh hmore, hlength]
      exact pairEscape_append_object hobject h
    · rw [unicodeEscape_single hcode hpair] at h
      cases h
      refine ⟨hfour, hread.imp Eq.symm fun hfirst => unicodeEscape_single hfirst ?_⟩
      rintro ⟨hhigh, second, hsecond⟩
      exact hpair ⟨hhigh, second ++ object, by rw [hdrop, hsecond]; rfl⟩

/-- An escape that is read stands in the text as a whole. Where it ends the text, the text alone may
be no JSON for want of the character behind it. -/
theorem escape_append_object {opening longer : Nat} {text : List Char} {d : Char} {size : Nat}
    (h : escape longer (text ++ object) = .ok (d, size)) :
    size ≤ text.length ∧ (size = text.length ∨ escape opening text = .ok (d, size)) := by
  cases text with
  | nil =>
    obtain ⟨c, rest, rfl, -⟩ := hobject.front
    cases h
  | cons c rest =>
    by_cases hu : c = 'u'
    · subst hu
      obtain ⟨read, hread, hsize⟩ := map_ok h
      cases hsize
      obtain ⟨hle, hsame⟩ := unicodeEscape_append_object hobject hread
      refine ⟨Nat.succ_le_succ hle, hsame.imp (congrArg Nat.succ) fun hunicode => ?_⟩
      rw [escape, hunicode]
      rfl
    · have hshort : ∀ more : List Char, shortEscape? c = some d → size = 1 →
          escape opening (c :: more) = .ok (d, size) := by
        intro more hletter hsize
        rw [escape, hletter, hsize]
        exact hu
      rw [List.cons_append, escape] at h
      · cases hletter : shortEscape? c with
        | none =>
          rw [hletter] at h
          cases h
        | some other =>
          rw [hletter] at h
          cases h
          exact ⟨Nat.succ_pos _, .inr (hshort rest hletter rfl)⟩
      · exact hu

theorem stringFrom_continues (room : Room) (opening longer : Nat) {skip : Nat}
    {text : List Char} (hskip : skip ≤ text.length) :
    Continues object room text (stringFrom opening skip text)
      (stringFrom longer skip (text ++ object)) := by
  -- the quote of the object closes the string
  have hclosed : ∃ c rest, stringFrom longer 0 object = .ok (['\x7b'], c :: rest) ∧
      c.isAlpha = true := by
    obtain ⟨c, rest, rfl, hc⟩ := hobject.front
    exact ⟨c, rest, rfl, hc⟩
  obtain ⟨letter, behind, hclosed, hletter⟩ := hclosed
  induction text generalizing skip with
  | nil =>
    obtain rfl : skip = 0 := Nat.le_zero.1 hskip
    rw [List.nil_append, hclosed]
    exact .inside _ _ hletter behind
  | cons c rest ih =>
    have hrest : rest <:+ c :: rest := List.suffix_cons c rest
    rw [List.cons_append]
    cases skip with
    | succ skip => exact (ih (Nat.le_of_succ_le_succ hskip)).of_suffix hrest
    | zero =>
      rw [stringFrom, stringFrom]
      split
      · exact .done [] rest
      · split
        · cases hescape : escape longer (rest ++ object) with
          | error fault =>
            obtain ⟨cause, left, rfl⟩ := escape_error hescape
            exact .malformed _ cause left
          | ok read =>
            obtain ⟨d, size⟩ := read
            obtain ⟨hsize, hend | hsame⟩ := escape_append_object hobject hescape
            · -- behind an escape that ends the text the string goes on in the object
              subst hend
              dsimp only
              rw [stringFrom_skip, hclosed]
              exact .inside _ _ hletter behind
            · rw [hsame]
              exact ((ih hsize).map _).of_suffix hrest
        · split
          · exact .malformed _ _ _
          · exact ((ih (Nat.zero_le _)).map _).of_suffix hrest

theorem string_continues (room : Room) (text : List Char) :
    Continues object room text (string text) (string (text ++ object)) :=
  (stringFrom_continues hobject room _ _ (Nat.zero_le _)).map String.ofList

/-! ## Items and members -/

section Parts

variable {α : Type} {room : Room} {close : Char} {rest : List Char}

/-- Behind an item the object is neither an end nor a comma. -/
theorem partsBehind_continues (hclose : close ≠ '\x7b') (last : α)
    {more longer : List Char → Read α}
    (hmore : ∀ behind, skipGap rest = ',' :: behind → Continues object room (skipGap behind)
      (more (skipGap behind)) (longer (skipGap behind ++ object))) :
    Continues object room rest (partsBehind close last more rest)
      (partsBehind close last longer (rest ++ object)) := by
  unfold partsBehind
  rw [skipGap_append_object hobject]
  cases hskip : skipGap rest with
  | nil =>
    obtain ⟨c, rest, rfl, -⟩ := hobject.front
    dsimp only [List.nil_append]
    rw [if_neg hclose.symm, if_neg (by decide)]
    exact .malformed _ _ _
  | cons c behind =>
    dsimp only [List.cons_append]
    split
    · exact .done last behind
    · split
      · rename_i hcomma
        subst hcomma
        rw [skipGap_append_object hobject]
        exact (hmore behind hskip).of_suffix
          ((skipGap_suffix behind).trans (suffix_of_skipGap hskip))
      · exact .malformed _ _ _

/-- The object is no closing bracket. -/
theorem openedBehind_continues (hclose : close ≠ '\x7b') (empty : α)
    {full longer : List Char → Read α}
    (hfull : Continues object room (skipGap rest) (full (skipGap rest))
      (longer (skipGap rest ++ object))) :
    Continues object room rest (openedBehind close empty full rest)
      (openedBehind close empty longer (rest ++ object)) := by
  unfold openedBehind
  rw [skipGap_append_object hobject, head?_append_object hobject hclose]
  split
  · rename_i hhead
    obtain ⟨behind, hbehind⟩ := List.head?_eq_some_iff.1 (eq_of_beq hhead)
    rw [hbehind]
    exact .done empty behind
  · exact hfull.of_suffix (skipGap_suffix rest)

end Parts

/-! ## All values -/

/-- How the three readers go on in front of the object, if they have fuel for the text. As much fuel
as the object needs is there behind it. -/
structure ReadersContinue (object : List Char) (extra fuel : Nat) : Prop where
  value : ∀ room text, text ≠ [] → 2 * text.length + 1 ≤ fuel → Continues object room text
    (Json.value room fuel text) (Json.value room (extra + fuel) (text ++ object))
  items : ∀ room text, 2 * text.length + 2 ≤ fuel → Continues object room text
    (Json.items room fuel text) (Json.items room (extra + fuel) (text ++ object))
  pairs : ∀ room text, 2 * text.length + 2 ≤ fuel → Continues object room text
    (Json.pairs room fuel text) (Json.pairs room (extra + fuel) (text ++ object))

namespace ReadersContinue

variable {extra fuel : Nat} {room : Room}

theorem value_succ (h : ReadersContinue object extra fuel) {text : List Char} (hne : text ≠ [])
    (hfuel : 2 * text.length + 1 ≤ fuel + 1) :
    Continues object room text (Json.value room (fuel + 1) text)
      (Json.value room (extra + fuel + 1) (text ++ object)) := by
  obtain ⟨c, rest, rfl⟩ := List.exists_cons_of_ne_nil hne
  have hsuffix : rest <:+ c :: rest := List.suffix_cons c rest
  have hrest : 2 * (skipGap rest).length + 2 ≤ fuel := by
    have hskip := (skipGap_suffix rest).length_le
    rw [List.length_cons] at hfuel
    omega
  rw [List.cons_append]
  by_cases hquote : c = '"'
  · subst hquote
    exact ((string_continues hobject room rest).map Value.str).of_suffix hsuffix
  by_cases harr : c = '['
  · subst harr
    rw [value_arr, value_arr]
    exact continues_enter rfl _ fun inner => openedBehind_continues hobject (by decide) _
      ((h.items inner _ hrest).map Value.arr)
  by_cases hobj : c = '\x7b'
  · subst hobj
    rw [value_obj, value_obj]
    exact continues_enter rfl _ fun inner => openedBehind_continues hobject (by decide) _
      ((h.pairs inner _ hrest).map fun pairs => Value.obj (Members.ofList pairs))
  rw [value_scalar room fuel hquote harr hobj, value_scalar room (extra + fuel) hquote harr hobj]
  exact scalar_continues hobject room hne

/-- The object alone is read as the value, or there is no room for it. -/
theorem value_object (hextra : object.length ≤ extra) :
    Json.value room (extra + fuel) object = .ok (v, []) ∨
      ¬ room.Holds 1 ∧ Json.value room (extra + fuel) object =
        .error (.refused (.tooDeep .object)) := by
  by_cases hroom : room.Holds 1
  · exact .inl (hobject.read room _ hroom (by omega))
  · refine .inr ⟨hroom, ?_⟩
    have hinner : room.inside? = none := by
      cases hinner : room.inside? with
      | none => rfl
      | some inner => exact absurd ((Room.holds_succ_iff hinner).2 inner.holds_zero) hroom
    obtain ⟨c, rest, rfl, -⟩ := hobject.front
    rw [List.length_cons] at hextra
    obtain ⟨n, hn⟩ : ∃ n, extra + fuel = n + 1 := ⟨extra + fuel - 1, by omega⟩
    rw [hn, value_obj, enter_eq_error hinner]

/-- A value is read on, and what follows it. In front of nothing the object is the value, and
nothing follows it. -/
theorem value_andThen {α : Type} (h : ReadersContinue object extra fuel)
    (hextra : object.length ≤ extra) {text : List Char} (hfuel : 2 * text.length + 1 ≤ fuel)
    {next more : Value → List Char → Read α}
    (hnext : ∀ item rest, rest <:+ text → rest.length < text.length →
      Continues object room rest (next item rest) (more item (rest ++ object)))
    (hletter : ∀ item c rest, c.isAlpha = true → IsMalformed (more item (c :: rest)))
    (hnil : ∀ item, IsMalformed (more item [])) :
    Continues object room text ((Json.value room fuel text).andThen next)
      ((Json.value room (extra + fuel) (text ++ object)).andThen more) := by
  by_cases hne : text = []
  · rw [hne, List.nil_append]
    rcases value_object hobject hextra with hread | ⟨hroom, hread⟩
    · rw [hread]
      exact (hnil v).continues _
    · rw [hread]
      refine .full _ (fun hholds => hroom (hholds.mono ?_)) _
      exact Nat.le_trans (by decide) (Nat.le_add_left reportCalls _)
  · refine (h.value room text hne hfuel).andThen (fun item rest hitem => ?_) hletter
    have htakes := hitem ▸ (readersTake fuel).value room text
    exact (hnext item rest htakes.suffix htakes.length_lt).of_suffix htakes.suffix

theorem items_succ (h : ReadersContinue object extra fuel) (hextra : object.length ≤ extra)
    {text : List Char} (hfuel : 2 * text.length + 2 ≤ fuel + 1) :
    Continues object room text (Json.items room (fuel + 1) text)
      (Json.items room (extra + fuel + 1) (text ++ object)) := by
  rw [Json.items_succ, Json.items_succ]
  refine h.value_andThen hobject hextra (by omega) (fun item rest _ hrest => ?_)
    (fun item c rest hc => isMalformed_partsBehind_letter rfl _ _ hc rest)
    fun item => ⟨_, _, rfl⟩
  -- an item and a comma are taken, so there is fuel for what is left
  refine partsBehind_continues hobject (by decide) _ fun behind hcomma => ?_
  refine (h.items room (skipGap behind) ?_).map _
  have hskip := (skipGap_suffix behind).length_le
  have hbehind := (suffix_of_skipGap hcomma).length_le
  omega

theorem pairsBehind (h : ReadersContinue object extra fuel) (member : String × Value)
    {rest : List Char} (hfuel : 2 * rest.length + 2 ≤ fuel) :
    Continues object room rest (Json.pairsBehind room fuel member rest)
      (Json.pairsBehind room (extra + fuel) member (rest ++ object)) := by
  rw [pairsBehind_eq_partsBehind, pairsBehind_eq_partsBehind]
  refine partsBehind_continues hobject (by decide) _ fun behind hcomma => ?_
  refine (h.pairs room (skipGap behind) ?_).map _
  have hskip := (skipGap_suffix behind).length_le
  have hbehind := (suffix_of_skipGap hcomma).length_le
  omega

theorem memberBehind (h : ReadersContinue object extra fuel) (hextra : object.length ≤ extra)
    (name : String) {rest : List Char} (hfuel : 2 * rest.length + 1 ≤ fuel) :
    Continues object room rest (Json.memberBehind room fuel name rest)
      (Json.memberBehind room (extra + fuel) name (rest ++ object)) := by
  unfold Json.memberBehind
  rw [skipGap_append_object hobject]
  cases hskip : skipGap rest with
  | nil =>
    -- the object is no colon
    obtain ⟨c, behind, rfl, -⟩ := hobject.front
    exact .malformed _ _ _
  | cons c behind =>
    dsimp only [List.cons_append]
    split
    · rw [skipGap_append_object hobject]
      have hinside := (skipGap_suffix behind).length_le
      have hbehind := (suffix_of_skipGap hskip).length_le
      refine (h.value_andThen hobject hextra (by omega)
        (fun item last _ hlast => h.pairsBehind hobject (name, item) (by omega))
        (fun item c rest hc => ?_) fun item => ⟨_, _, rfl⟩).of_suffix
        ((skipGap_suffix behind).trans (suffix_of_skipGap hskip))
      rw [pairsBehind_eq_partsBehind]
      exact isMalformed_partsBehind_letter rfl _ _ hc rest
    · exact .malformed _ _ _

theorem pairs_succ (h : ReadersContinue object extra fuel) (hextra : object.length ≤ extra)
    {text : List Char} (hfuel : 2 * text.length + 2 ≤ fuel + 1) :
    Continues object room text (Json.pairs room (fuel + 1) text)
      (Json.pairs room (extra + fuel + 1) (text ++ object)) := by
  by_cases hquote : ∃ rest, text = '"' :: rest
  · obtain ⟨rest, rfl⟩ := hquote
    rw [List.cons_append, pairs_quote, pairs_quote]
    refine ((string_continues hobject room rest).andThen (fun name behind hname => ?_)
      fun name c behind hc => isMalformed_memberBehind_letter _ _ name hc behind).of_suffix
      (List.suffix_cons _ rest)
    have htakes := hname ▸ takes_string room rest
    have hlast := htakes.length_lt
    rw [List.length_cons] at hfuel
    exact (h.memberBehind hobject hextra name (by omega)).of_suffix htakes.suffix
  · have hother : ∀ rest, text ≠ '"' :: rest := fun rest h => hquote ⟨rest, h⟩
    rw [pairs_of_ne_quote _ _ (append_object_ne_cons hobject (by decide) hother)]
    exact .malformed _ _ _

end ReadersContinue

/-- **The three readers go no further in front of the object than in the text alone.** -/
theorem readersContinue {extra : Nat} (hextra : object.length ≤ extra) (fuel : Nat) :
    ReadersContinue object extra fuel := by
  induction fuel with
  | zero =>
    -- no text has so little fuel
    refine ⟨fun room text _ hfuel => ?_, fun room text hfuel => ?_, fun room text hfuel => ?_⟩
    · omega
    · omega
    · omega
  | succ fuel ih =>
    exact ⟨fun _ _ => ih.value_succ hobject, fun _ _ => ih.items_succ hobject hextra,
      fun _ _ => ih.pairs_succ hobject hextra⟩

/-! ## Whole texts -/

/-- **White space in front of the object is no part of it.** -/
theorem readWithin_gap_append {room : Room} (hroom : room.Holds 1) {text : List Char}
    (h : text.all isGap = true) : readWithin room (text ++ object) = .ok v := by
  have hgap := List.all_eq_true.1 h
  have hskip : skipGap (text ++ object) = object := by
    rw [skipGap_append_object hobject, skipGap, List.dropWhile_eq_nil_iff.2 hgap, List.nil_append]
  have hvalue : value room (enoughFuel (text ++ object)) object = .ok (v, []) := by
    refine hobject.read room _ hroom ?_
    rw [enoughFuel, List.length_append]
    omega
  unfold readWithin
  split
  · rename_i hmark
    obtain ⟨more, rfl, -⟩ := append_object_eq_cons hobject (by decide) hmark
    exact absurd (hgap '\uFEFF' (List.mem_cons_self ..)) (by decide)
  · rw [hskip, hvalue]
    rfl

/-- **Behind anything else the object is lost.** The two are no JSON as one text, unless the first
of them was refused, as the two are then, or opens so many brackets that there is no room for the
object or for reporting a fault. -/
theorem readWithin_append_object (room : Room) {text : List Char} (h : ¬ text.all isGap = true) :
    IsMalformed (readWithin room (text ++ object)) ∨
      (∃ refusal, readWithin room text = .error (.refused refusal) ∧
        readWithin room (text ++ object) = .error (.refused refusal)) ∨
      ¬ room.Holds (openings text + reportCalls) ∧
        ∃ refusal, readWithin room (text ++ object) = .error (.refused refusal) := by
  have hne : skipGap text ≠ [] := fun hnil =>
    h (List.all_eq_true.2 (List.dropWhile_eq_nil_iff.1 hnil))
  have hfuel : enoughFuel (text ++ object) = 2 * object.length + enoughFuel text := by
    rw [enoughFuel, enoughFuel, List.length_append]
    omega
  have hcontinues : Continues object room text (value room (enoughFuel text) (skipGap text))
      (value room (enoughFuel (text ++ object)) (skipGap (text ++ object))) := by
    rw [hfuel, skipGap_append_object hobject]
    refine ((readersContinue hobject (by omega) _).value room _ hne ?_).of_suffix
      (skipGap_suffix text)
    have hlength := (skipGap_suffix text).length_le
    rw [enoughFuel]
    omega
  by_cases hmark : ∃ rest, text = '\uFEFF' :: rest
  · obtain ⟨rest, rfl⟩ := hmark
    exact .inl ⟨_, _, rfl⟩
  · have hother : ∀ rest, text ≠ '\uFEFF' :: rest := fun rest h => hmark ⟨rest, h⟩
    rw [readWithin_of_ne_mark room hother,
      readWithin_of_ne_mark room (append_object_ne_cons hobject (by decide) hother)]
    generalize value room (enoughFuel text) (skipGap text) = first at hcontinues ⊢
    generalize value room (enoughFuel (text ++ object)) (skipGap (text ++ object)) = second
      at hcontinues ⊢
    cases hcontinues with
    | done a rest =>
      -- the object is text behind the end
      refine .inl (isMalformed_atEnd ?_)
      rw [skipGap_append_object hobject]
      obtain ⟨c, behind, rfl, -⟩ := hobject.front
      exact List.append_ne_nil_of_right_ne_nil _ (List.cons_ne_nil _ _)
    | refused refusal => exact .inr (.inl ⟨refusal, rfl, rfl⟩)
    | malformed _ cause left => exact .inl ⟨cause, left, rfl⟩
    | inside _ a hc rest =>
      refine .inl (isMalformed_atEnd ?_)
      rw [skipGap_letter hc]
      exact List.cons_ne_nil _ _
    | full _ hfull refusal => exact .inr (.inr ⟨hfull, refusal, rfl⟩)

end Object

end CompactShell.Json
