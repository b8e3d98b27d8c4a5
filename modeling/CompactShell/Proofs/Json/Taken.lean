import CompactShell.Proofs.Json.Proper
import CompactShell.Text.Space
import Mathlib.Data.List.Infix

/-!
# What a reader takes of a text

A reader that succeeds has taken something from the front of its text and leaves the rest
(`Takes.ok`). It refuses a text for the digits of a whole number only where such a run of digits
stands in it, and for want of room only where as many brackets are opened in it as there is room
for, or almost as many (`hasCause_of_readWithin`). The induction is on the steps that the three
readers may take, for all three at once.
-/

namespace CompactShell.Json

open Text

/-- A run of this many digits stands in the text, and they are too many for a whole number. -/
def HasLongNumber (n : Nat) (text : List Char) : Prop :=
  maxDigits < n ∧ ∃ digits, digits <:+: text ∧ digits.length = n ∧ ∀ c ∈ digits, c.isDigit = true

/-- The bracket opens an array or an object. -/
def isOpening (c : Char) : Bool :=
  c = '[' || c = '\x7b'

/-- How many arrays and objects can be opened in the text. Brackets in its strings are counted too. -/
def openings (text : List Char) : Nat :=
  text.countP isOpening

/-- What stands in a text that is refused. -/
def HasCause (room : Room) (text : List Char) : Refusal → Prop
  | .hugeInteger digits => HasLongNumber digits text
  | .tooDeep _ => ¬ room.Holds (openings text)
  | .noCall => ¬ room.Holds (openings text + reportCalls)

/-- The text is no JSON. -/
def IsMalformed {α : Type} (result : Except Fault α) : Prop :=
  ∃ cause left, result = .error (.malformed cause left)

/-- What comes of reading a text: something is taken and the rest is left, or the text is no JSON, or
it is refused with cause. -/
inductive Takes {α : Type} (room : Room) (text : List Char) : Read α → Prop
  | ok (taken : List Char) {rest : List Char} {a : α} (h : text = taken ++ rest)
      (hne : taken ≠ []) : Takes room text (.ok (a, rest))
  | malformed (cause : Cause) (left : Nat) : Takes room text (.error (.malformed cause left))
  | refused {refusal : Refusal} (h : HasCause room text refusal) :
      Takes room text (.error (.refused refusal))

theorem openings_le_of_suffix {text whole : List Char} (h : text <:+ whole) :
    openings text ≤ openings whole :=
  h.sublist.countP_le

/-- The cause stands in every longer text. -/
theorem HasCause.of_suffix {room : Room} {text whole : List Char} {refusal : Refusal}
    (h : HasCause room text refusal) (hsuffix : text <:+ whole) : HasCause room whole refusal := by
  cases refusal with
  | hugeInteger n =>
    obtain ⟨hsize, digits, hinside, hdigits⟩ := h
    exact ⟨hsize, digits, hinside.trans hsuffix.isInfix, hdigits⟩
  | tooDeep nest => exact fun hholds => h (hholds.mono (openings_le_of_suffix hsuffix))
  | noCall =>
    exact fun hholds => h (hholds.mono (Nat.add_le_add_right (openings_le_of_suffix hsuffix) _))

/-- What there is no room for inside a bracket there is no room for with the bracket. -/
theorem HasCause.of_inside {room inner : Room} (hinner : room.inside? = some inner) {c : Char}
    (hc : isOpening c = true) {text : List Char} {refusal : Refusal}
    (h : HasCause inner text refusal) : HasCause room (c :: text) refusal := by
  cases refusal with
  | hugeInteger n =>
    have hlong : HasCause room text (.hugeInteger n) := h
    exact hlong.of_suffix (List.suffix_cons c text)
  | tooDeep nest =>
    intro hholds
    rw [openings, List.countP_cons_of_pos hc] at hholds
    exact h ((Room.holds_succ_iff hinner).1 hholds)
  | noCall =>
    intro hholds
    rw [openings, List.countP_cons_of_pos hc, Nat.add_right_comm] at hholds
    exact h ((Room.holds_succ_iff hinner).1 hholds)

namespace Takes

variable {α β : Type} {room inner : Room} {text whole rest : List Char} {result : Read α}

theorem map (h : Takes room text result) (f : α → β) :
    Takes room text (result.map fun (a, rest) => (f a, rest)) := by
  cases h with
  | ok taken htext hne => exact .ok taken htext hne
  | malformed cause left => exact .malformed cause left
  | refused hcause => exact .refused hcause

/-- What is taken of the end of a text is taken with all in front of it. -/
theorem of_suffix (h : Takes room text result) (hsuffix : text <:+ whole) :
    Takes room whole result := by
  cases h with
  | ok taken htext hne =>
    obtain ⟨front, rfl⟩ := hsuffix
    refine .ok (front ++ taken) ?_ (List.append_ne_nil_of_right_ne_nil front hne)
    rw [htext, List.append_assoc]
  | malformed cause left => exact .malformed cause left
  | refused hcause => exact .refused (hcause.of_suffix hsuffix)

/-- What is taken inside a bracket is taken with it. -/
theorem of_inside (h : Takes inner text result) (hinner : room.inside? = some inner) {c : Char}
    (hc : isOpening c = true) : Takes room (c :: text) result := by
  cases h with
  | ok taken htext hne => exact .ok (c :: taken) (congrArg _ htext) (List.cons_ne_nil c taken)
  | malformed cause left => exact .malformed cause left
  | refused hcause => exact .refused (hcause.of_inside hinner hc)

/-- Calls that there is no room for have their cause in how deep the text is. -/
theorem calling (h : Takes room text result) {calls : Nat} (hcalls : calls ≤ reportCalls) :
    Takes room text (calling room calls result) := by
  unfold Json.calling
  split
  · exact h
  · rename_i hroom
    exact .refused fun hholds =>
      hroom (hholds.mono (Nat.le_trans hcalls (Nat.le_add_left reportCalls _)))

theorem reported (h : Takes room text result) : Takes room text (reported room result) := by
  unfold Json.reported
  split
  · exact h
  · exact h.calling (Nat.le_refl _)
  · exact h

theorem suffix {a : α} (h : Takes room text (.ok (a, rest))) : rest <:+ text := by
  cases h with
  | ok taken htext _ => exact ⟨taken, htext.symm⟩

theorem length_lt {a : α} (h : Takes room text (.ok (a, rest))) : rest.length < text.length := by
  cases h with
  | ok taken htext hne =>
    have hpos := List.length_pos_iff.2 hne
    rw [htext, List.length_append]
    omega

theorem hasCause {refusal : Refusal} (h : Takes room text (.error (.refused refusal) : Read α)) :
    HasCause room text refusal := by
  cases h with
  | refused hcause => exact hcause

end Takes

theorem skipGap_suffix (text : List Char) : skipGap text <:+ text :=
  List.dropWhile_suffix isGap

theorem suffix_of_skipGap {c : Char} {text rest : List Char} (h : skipGap text = c :: rest) :
    rest <:+ text :=
  (List.suffix_cons c rest).trans (h ▸ skipGap_suffix text)

/-! ## Strings -/

theorem escape_error {opening : Nat} {text : List Char} {fault : Fault}
    (h : escape opening text = .error fault) : ∃ cause left, fault = .malformed cause left := by
  have hunicode : ∀ {rest : List Char} {fault : Fault}, unicodeEscape rest = .error fault →
      ∃ cause left, fault = .malformed cause left := by
    intro rest fault h
    unfold unicodeEscape at h
    split at h
    · cases h
      exact ⟨_, _, rfl⟩
    · split at h
      · split at h
        · cases h
        · split at h
          · cases h
            exact ⟨_, _, rfl⟩
          · split at h
            · cases h
            · cases h
      · cases h
  unfold escape at h
  split at h
  · cases h
    exact ⟨_, _, rfl⟩
  · rename_i rest
    cases hread : unicodeEscape rest with
    | error other =>
      rw [hread] at h
      cases h
      exact hunicode hread
    | ok read =>
      rw [hread] at h
      cases h
  · split at h
    · cases h
    · cases h
      exact ⟨_, _, rfl⟩

theorem takes_stringFrom (room : Room) (opening skip : Nat) (text : List Char) :
    Takes room text (stringFrom opening skip text) := by
  induction text generalizing skip with
  | nil =>
    rw [stringFrom]
    exact .malformed _ _
  | cons c rest ih =>
    have hrest : rest <:+ c :: rest := List.suffix_cons c rest
    unfold stringFrom
    split
    · exact (ih _).of_suffix hrest
    · split
      · exact .ok [c] rfl (List.cons_ne_nil c [])
      · split
        · split
          · rename_i hescape
            obtain ⟨cause, left, rfl⟩ := escape_error hescape
            exact .malformed cause left
          · exact ((ih _).map _).of_suffix hrest
        · split
          · exact .malformed _ _
          · exact ((ih _).map _).of_suffix hrest

theorem takes_string (room : Room) (text : List Char) : Takes room text (string text) :=
  (takes_stringFrom room _ _ text).map String.ofList

/-! ## Numbers -/

theorem wholeDigits?_of_ne_zero {text : List Char} (h : ∀ rest, text ≠ '0' :: rest) :
    wholeDigits? text =
      if text.takeWhile Char.isDigit = [] then none
      else some (text.takeWhile Char.isDigit, text.dropWhile Char.isDigit) := by
  unfold wholeDigits?
  split
  · exact absurd rfl (h _)
  · split
    · rename_i hnone
      rw [if_pos hnone]
    · rename_i hsome
      rw [if_neg hsome]

theorem append_of_wholeDigits? {text digits rest : List Char}
    (h : wholeDigits? text = some (digits, rest)) : digits ++ rest = text := by
  unfold wholeDigits? at h
  split at h
  · cases h
    rfl
  · split at h
    · cases h
    · cases h
      exact List.takeWhile_append_dropWhile

theorem fractionDigits_suffix (text : List Char) : (fractionDigits text).2 <:+ text := by
  unfold fractionDigits
  split
  · rename_i rest
    split
    · exact List.suffix_rfl
    · exact (List.dropWhile_suffix _).trans (List.suffix_cons '.' rest)
  · exact List.suffix_rfl

theorem powerOfTen?_suffix {text rest : List Char} {power : Int}
    (h : powerOfTen? text = some (power, rest)) : rest <:+ text := by
  unfold powerOfTen? at h
  split at h
  · cases h
  · rename_i mark behind
    split at h
    · dsimp only at h
      split at h
      · cases h
      · cases h
        have hunsigned : (if (behind.head? == some '-' || behind.head? == some '+') = true
            then behind.tail else behind) <:+ behind := by
          split
          · exact List.tail_suffix behind
          · exact List.suffix_rfl
        exact ((List.dropWhile_suffix _).trans hunsigned).trans (List.suffix_cons mark behind)
    · cases h

theorem takes_unsignedNumber? (room : Room) {negative : Bool} {text : List Char}
    {result : Read Value} (h : unsignedNumber? negative text = some result) :
    Takes room text result := by
  obtain ⟨⟨whole, behind⟩, hwhole, hread⟩ := Option.map_eq_some_iff.1 h
  obtain ⟨hne, hdigits⟩ := wholeDigits?_spec hwhole
  have htext := append_of_wholeDigits? hwhole
  have htaken : ∀ (v : Value) {rest : List Char}, rest <:+ behind →
      Takes room text (.ok (v, rest)) := by
    intro v rest hrest
    obtain ⟨front, rfl⟩ := hrest
    refine .ok (whole ++ front) ?_ (List.append_ne_nil_of_left_ne_nil hne front)
    rw [← htext, List.append_assoc]
  have hfraction := fractionDigits_suffix behind
  dsimp only at hread
  split at hread
  · rename_i hpower
    cases hread
    exact htaken _ ((powerOfTen?_suffix hpower).trans hfraction)
  · split at hread
    · cases hread
      exact htaken _ hfraction
    · split at hread
      · rename_i hsize
        cases hread
        have hlong : HasLongNumber whole.length text :=
          ⟨hsize, whole, ⟨[], behind, htext⟩, rfl, hdigits⟩
        exact .refused hlong
      · cases hread
        exact htaken _ hfraction

/-- The named value that a text starts with. -/
def named? (text : List Char) : Option (String × Value) :=
  namedValues.find? fun named => startsWith named.1 text

/-- The number that a text starts with. -/
def number (text : List Char) : Read Value :=
  let negative := text.head? == some '-'
  (unsignedNumber? negative (if negative then text.tail else text)).getD (malformed .noValue text)

section Scalar

variable {text : List Char} {named : String × Value}

theorem scalar_of_named? (room : Room) (h : named? text = some named) :
    scalar room text =
      calling room (wordCalls named.2) (.ok (named.2, text.drop named.1.length)) := by
  unfold scalar
  split
  · rename_i hfind
    cases h.symm.trans hfind
    rfl
  · rename_i hfind
    cases h.symm.trans hfind

theorem scalar_of_number (room : Room) (h : named? text = none) :
    scalar room text = number text := by
  unfold scalar
  split
  · rename_i hfind
    cases h.symm.trans hfind
  · rfl

theorem append_of_named? (h : named? text = some named) :
    ∃ rest, text = named.1.toList ++ rest ∧ text.drop named.1.length = rest := by
  rw [named?] at h
  have hfound := List.find?_some h
  obtain ⟨rest, rfl⟩ := startsWith_iff.1 hfound
  exact ⟨rest, rfl, by rw [← String.length_toList, List.drop_left]⟩

end Scalar

theorem wordCalls_le (v : Value) : wordCalls v ≤ reportCalls := by
  unfold wordCalls
  split
  · decide
  · decide

theorem takes_scalar (room : Room) (text : List Char) : Takes room text (scalar room text) := by
  cases hnamed : named? text with
  | some named =>
    have hnames : ∀ named ∈ namedValues, named.1.toList ≠ [] := by decide
    obtain ⟨rest, htext, hdrop⟩ := append_of_named? hnamed
    have htakes : Takes room text (.ok (named.2, rest)) :=
      .ok named.1.toList htext (hnames named (List.mem_of_find?_eq_some hnamed))
    rw [scalar_of_named? room hnamed, hdrop]
    exact htakes.calling (wordCalls_le named.2)
  | none =>
    rw [scalar_of_number room hnamed, number]
    cases hnumber : unsignedNumber? (text.head? == some '-')
        (if (text.head? == some '-') = true then text.tail else text) with
    | none => exact .malformed _ _
    | some result =>
      refine (takes_unsignedNumber? room hnumber).of_suffix ?_
      split
      · exact List.tail_suffix text
      · exact List.suffix_rfl

/-- No scalar starts with such a character. -/
theorem isMalformed_scalar (room : Room) {c : Char} (hc : c.isAlphanum = false) (hminus : c ≠ '-')
    (rest : List Char) : IsMalformed (scalar room (c :: rest)) := by
  have hnamed : named? (c :: rest) = none := by
    have hheads : ∀ named ∈ namedValues,
        named.1.toList.head?.all (fun d => d.isAlphanum || d == '-') = true := by decide
    have hnames : ∀ named ∈ namedValues, named.1.toList ≠ [] := by decide
    refine List.find?_eq_none.2 fun named hmem hstart => ?_
    obtain ⟨d, name, hname⟩ := List.exists_cons_of_ne_nil (hnames named hmem)
    obtain ⟨behind, hbehind⟩ := startsWith_iff.1 hstart
    rw [hname] at hbehind
    cases hbehind
    have hhead := hheads named hmem
    rw [hname, List.head?_cons, Option.all_some, hc, Bool.false_or] at hhead
    exact hminus (eq_of_beq hhead)
  have hdigit : c.isDigit = false := by
    rw [Char.isAlphanum, Bool.or_eq_false_iff] at hc
    exact hc.2
  have hwhole : wholeDigits? (c :: rest) = none := by
    rw [wholeDigits?_of_ne_zero fun more heq => ?_, List.takeWhile_cons, hdigit]
    · rfl
    · rw [(List.cons.inj heq).1] at hdigit
      exact absurd hdigit (by decide)
  have hsign : ((c :: rest).head? == some '-') = false :=
    beq_eq_false_iff_ne.2 fun h => hminus (Option.some.inj h)
  rw [scalar_of_number room hnamed, number, hsign, if_neg Bool.false_ne_true, unsignedNumber?, hwhole]
  exact ⟨_, _, rfl⟩

/-! ## Items and members -/

/-- Reading on in the text that is left. -/
def Read.andThen {α β : Type} (first : Read α) (next : α → List Char → Read β) : Read β :=
  match first with
  | .error fault => .error fault
  | .ok (a, rest) => next a rest

/-- What is read behind an opening bracket: the closing one, or all that it stands in front of. -/
def openedBehind {α : Type} (close : Char) (empty : α) (full : List Char → Read α)
    (rest : List Char) : Read α :=
  if (skipGap rest).head? == some close then .ok (empty, (skipGap rest).tail)
  else full (skipGap rest)

/-- What is read behind an item or a member: the end, or a comma and more of them. -/
def partsBehind {α : Type} (close : Char) (last : α) (more : List Char → Read α)
    (rest : List Char) : Read α :=
  match skipGap rest with
  | [] => malformed .noComma []
  | c :: rest =>
    if c = close then .ok (last, rest)
    else if c = ',' then more (skipGap rest)
    else malformed .noComma (c :: rest)

/-- What is read behind the name of a member. -/
def memberBehind (room : Room) (fuel : Nat) (name : String) (rest : List Char) :
    Read (List (String × Value)) :=
  match skipGap rest with
  | [] => malformed .noColon []
  | c :: rest =>
    if c = ':' then
      (value room fuel (skipGap rest)).andThen fun item rest =>
        pairsBehind room fuel (name, item) rest
    else malformed .noColon (c :: rest)

theorem openedBehind_close {α : Type} {close : Char} (empty : α) (full : List Char → Read α)
    {rest behind : List Char} (h : skipGap rest = close :: behind) :
    openedBehind close empty full rest = .ok (empty, behind) := by
  rw [openedBehind, h]
  exact if_pos (beq_self_eq_true (some close))

theorem openedBehind_other {α : Type} {close : Char} (empty : α) (full : List Char → Read α)
    {rest : List Char} (h : ∀ behind, skipGap rest = close :: behind → False) :
    openedBehind close empty full rest = full (skipGap rest) := by
  refine if_neg fun hhead => ?_
  obtain ⟨behind, hbehind⟩ := List.head?_eq_some_iff.1 (eq_of_beq hhead)
  exact h behind hbehind

theorem value_arr (room : Room) (fuel : Nat) (rest : List Char) :
    value room (fuel + 1) ('[' :: rest) =
      enter room .array fun room =>
        openedBehind ']' (.arr [])
          (fun text => (items room fuel text).map fun (items, rest) => (.arr items, rest)) rest := by
  rw [value]
  congr
  funext room
  split
  · rename_i hclose
    rw [openedBehind_close _ _ hclose]
  · rename_i hopen
    rw [openedBehind_other _ _ hopen]

theorem value_obj (room : Room) (fuel : Nat) (rest : List Char) :
    value room (fuel + 1) ('\x7b' :: rest) =
      enter room .object fun room =>
        openedBehind '\x7d' (.obj [])
          (fun text =>
            (pairs room fuel text).map fun (pairs, rest) => (.obj (Members.ofList pairs), rest))
          rest := by
  rw [value]
  congr
  funext room
  split
  · rename_i hclose
    rw [openedBehind_close _ _ hclose]
  · rename_i hopen
    rw [openedBehind_other _ _ hopen]

section Parts

variable {α : Type} {close : Char} (last : α) (more : List Char → Read α) {rest : List Char}

theorem partsBehind_close {behind : List Char} (h : skipGap rest = close :: behind) :
    partsBehind close last more rest = .ok (last, behind) := by
  rw [partsBehind, h]
  exact if_pos rfl

theorem partsBehind_comma (hclose : close ≠ ',') {behind : List Char}
    (h : skipGap rest = ',' :: behind) :
    partsBehind close last more rest = more (skipGap behind) := by
  rw [partsBehind, h]
  exact (if_neg hclose.symm).trans (if_pos rfl)

theorem partsBehind_other (hclose : ∀ behind, skipGap rest = close :: behind → False)
    (hcomma : ∀ behind, skipGap rest = ',' :: behind → False) :
    partsBehind close last more rest = malformed .noComma (skipGap rest) := by
  unfold partsBehind
  cases hskip : skipGap rest with
  | nil => rfl
  | cons c behind =>
    have hc : c ≠ close := fun h => hclose behind (h ▸ hskip)
    have hother : c ≠ ',' := fun h => hcomma behind (h ▸ hskip)
    dsimp only
    rw [if_neg hc, if_neg hother]

end Parts

theorem items_succ (room : Room) (fuel : Nat) (text : List Char) :
    items room (fuel + 1) text =
      (value room fuel text).andThen fun item rest =>
        partsBehind ']' [item]
          (fun text => (items room fuel text).map fun (more, rest) => (item :: more, rest))
          rest := by
  rw [items]
  cases value room fuel text with
  | error fault => rfl
  | ok read =>
    obtain ⟨item, rest⟩ := read
    dsimp only [Read.andThen]
    split
    · rename_i hclose
      rw [partsBehind_close _ _ hclose]
    · rename_i hcomma
      rw [partsBehind_comma _ _ (by decide) hcomma]
    · rename_i hclose hcomma
      rw [partsBehind_other _ _ hclose hcomma]

theorem pairsBehind_eq_partsBehind (room : Room) (fuel : Nat) (member : String × Value)
    (rest : List Char) :
    pairsBehind room fuel member rest =
      partsBehind '\x7d' [member]
        (fun text => (pairs room fuel text).map fun (more, rest) => (member :: more, rest))
        rest := by
  unfold pairsBehind
  split
  · rename_i hclose
    rw [partsBehind_close _ _ hclose]
  · rename_i hcomma
    rw [partsBehind_comma _ _ (by decide) hcomma]
  · rename_i hclose hcomma
    rw [partsBehind_other _ _ hclose hcomma]

theorem pairs_quote (room : Room) (fuel : Nat) (text : List Char) :
    pairs room (fuel + 1) ('"' :: text) = (string text).andThen (memberBehind room fuel) := by
  rw [pairs]
  cases string text with
  | error fault => rfl
  | ok read =>
    obtain ⟨name, rest⟩ := read
    dsimp only [Read.andThen]
    unfold memberBehind
    cases skipGap rest with
    | nil => rfl
    | cons c behind =>
      dsimp only
      split
      · rename_i hcolon
        cases hcolon
        rw [if_pos rfl]
        cases value room fuel (skipGap behind) with
        | error fault => rfl
        | ok read => rfl
      · rename_i hcolon
        rw [if_neg fun h => hcolon behind (congrArg (· :: behind) h)]

theorem pairs_of_ne_quote (room : Room) (fuel : Nat) {text : List Char}
    (h : ∀ rest, text ≠ '"' :: rest) : pairs room (fuel + 1) text = malformed .noName text := by
  rw [pairs]
  exact h

section Taken

variable {room : Room}

theorem Takes.andThen {α β : Type} {text : List Char} {first : Read α}
    {next : α → List Char → Read β} (h : Takes room text first)
    (hnext : ∀ a rest, Takes room rest (next a rest)) : Takes room text (first.andThen next) := by
  cases h with
  | ok taken htext hne => exact (hnext _ _).of_suffix ⟨taken, htext.symm⟩
  | malformed cause left => exact .malformed cause left
  | refused hcause => exact .refused hcause

theorem takes_openedBehind {α : Type} (close : Char) (empty : α) {full : List Char → Read α}
    (h : ∀ text, Takes room text (full text)) (rest : List Char) :
    Takes room rest (openedBehind close empty full rest) := by
  unfold openedBehind
  split
  · rename_i hclose
    obtain ⟨behind, hbehind⟩ := List.head?_eq_some_iff.1 (eq_of_beq hclose)
    obtain ⟨gap, hgap⟩ := skipGap_suffix rest
    refine .ok (gap ++ [close]) ?_ (List.append_ne_nil_of_right_ne_nil gap (List.cons_ne_nil _ _))
    rw [hbehind, List.tail_cons, List.append_assoc, List.singleton_append, ← hbehind, hgap]
  · exact (h _).of_suffix (skipGap_suffix rest)

/-- What stands behind an opening bracket is read where there is room for it. -/
theorem takes_enter {α : Type} {c : Char} (hc : isOpening c = true) (nest : Nest)
    {inside : Room → Read α} {rest : List Char} (h : ∀ inner, Takes inner rest (inside inner)) :
    Takes room (c :: rest) (enter room nest inside) := by
  cases hinner : room.inside? with
  | none =>
    rw [enter_eq_error hinner]
    refine .refused fun hholds => ?_
    rw [openings, List.countP_cons_of_pos hc] at hholds
    exact Room.not_holds_succ hinner hholds
  | some inner =>
    rw [enter_eq hinner]
    exact (h inner).reported.of_inside hinner hc

theorem takes_partsBehind {α : Type} (close : Char) (last : α) {more : List Char → Read α}
    (h : ∀ text, Takes room text (more text)) (text : List Char) :
    Takes room text (partsBehind close last more text) := by
  unfold partsBehind
  split
  · exact .malformed _ _
  · rename_i c rest hskip
    split
    · obtain ⟨gap, hgap⟩ := skipGap_suffix text
      refine .ok (gap ++ [c]) ?_ (List.append_ne_nil_of_right_ne_nil gap
        (List.cons_ne_nil c []))
      rw [← hgap, hskip, List.append_assoc, List.singleton_append]
    · split
      · exact (h _).of_suffix ((skipGap_suffix rest).trans (suffix_of_skipGap hskip))
      · exact .malformed _ _

end Taken

/-! ## All values -/

/-- With the fuel, the three readers take something of a text or fail on it. -/
structure ReadersTake (fuel : Nat) : Prop where
  value : ∀ room text, Takes room text (Json.value room fuel text)
  items : ∀ room text, Takes room text (Json.items room fuel text)
  pairs : ∀ room text, Takes room text (Json.pairs room fuel text)

namespace ReadersTake

variable {fuel : Nat}

theorem value_succ (h : ReadersTake fuel) (room : Room) (text : List Char) :
    Takes room text (Json.value room (fuel + 1) text) := by
  cases text with
  | nil => exact takes_scalar room []
  | cons c rest =>
    by_cases hquote : c = '"'
    · subst hquote
      exact ((takes_string room rest).map Value.str).of_suffix (List.suffix_cons _ rest)
    by_cases harr : c = '['
    · subst harr
      rw [value_arr]
      exact takes_enter rfl _ fun inner =>
        takes_openedBehind _ _ (fun text => (h.items inner text).map Value.arr) rest
    by_cases hobj : c = '\x7b'
    · subst hobj
      rw [value_obj]
      exact takes_enter rfl _ fun inner =>
        takes_openedBehind _ _
          (fun text => (h.pairs inner text).map fun pairs => Value.obj (Members.ofList pairs)) rest
    rw [value_scalar room fuel hquote harr hobj]
    exact takes_scalar room (c :: rest)

theorem items_succ (h : ReadersTake fuel) (room : Room) (text : List Char) :
    Takes room text (Json.items room (fuel + 1) text) := by
  rw [Json.items_succ]
  exact (h.value room text).andThen fun item rest =>
    takes_partsBehind ']' [item] (fun text => (h.items room text).map _) rest

theorem memberBehind (h : ReadersTake fuel) (room : Room) (name : String) (text : List Char) :
    Takes room text (Json.memberBehind room fuel name text) := by
  unfold Json.memberBehind
  split
  · exact .malformed _ _
  · rename_i c rest hskip
    split
    · refine ((h.value room (skipGap rest)).andThen fun item rest => ?_).of_suffix
        ((skipGap_suffix rest).trans (suffix_of_skipGap hskip))
      rw [pairsBehind_eq_partsBehind]
      exact takes_partsBehind '\x7d' [(name, item)] (fun text => (h.pairs room text).map _) rest
    · exact .malformed _ _

theorem pairs_succ (h : ReadersTake fuel) (room : Room) (text : List Char) :
    Takes room text (Json.pairs room (fuel + 1) text) := by
  by_cases hquote : ∃ rest, text = '"' :: rest
  · obtain ⟨rest, rfl⟩ := hquote
    rw [pairs_quote]
    exact ((takes_string room rest).andThen (h.memberBehind room)).of_suffix
      (List.suffix_cons _ rest)
  · rw [pairs_of_ne_quote room fuel fun rest h => hquote ⟨rest, h⟩]
    exact .malformed _ _

end ReadersTake

/-- **The three readers take something of a text or fail on it.** -/
theorem readersTake (fuel : Nat) : ReadersTake fuel := by
  induction fuel with
  | zero =>
    refine ⟨fun room text => ?_, fun room text => ?_, fun room text => ?_⟩
    · rw [value]
      exact .malformed _ _
    · rw [items]
      exact .malformed _ _
    · rw [pairs]
      exact .malformed _ _
  | succ fuel ih => exact ⟨ih.value_succ, ih.items_succ, ih.pairs_succ⟩

/-! ## Whole texts -/

/-- What is read, if only white space is left behind it. -/
def Read.atEnd (first : Read Value) : Except Fault Value :=
  match first with
  | .error fault => .error fault
  | .ok (v, rest) =>
    match skipGap rest with
    | [] => .ok v
    | rest => malformed .extraText rest

theorem readWithin_of_ne_mark (room : Room) {text : List Char}
    (h : ∀ rest, text ≠ '\uFEFF' :: rest) :
    readWithin room text = (value room (enoughFuel text) (skipGap text)).atEnd := by
  unfold readWithin
  split
  · rename_i rest
    exact absurd rfl (h rest)
  · rfl

/-- **White space is no JSON.** -/
theorem isMalformed_readWithin_of_isWhite {text : List Char} (h : isWhite text = true)
    (room : Room) : IsMalformed (readWithin room text) := by
  have hspace : ∀ c ∈ text, isSpace c = true := List.all_eq_true.1 h
  have hvalue : IsMalformed (value room (enoughFuel text) (skipGap text)) := by
    cases hskip : skipGap text with
    | nil => exact ⟨_, _, rfl⟩
    | cons c rest =>
      have hc : isSpace c = true :=
        hspace c ((skipGap_suffix text).subset (hskip ▸ List.mem_cons_self ..))
      have hletter : c.isAlphanum = false := by
        refine Bool.eq_false_iff.2 fun halnum => ?_
        rw [isSpace, not_covers_of_apart (by decide) (isAlphanum_iff.1 halnum)] at hc
        cases hc
      have hother : ∀ d, isSpace d = false → c ≠ d := by
        rintro d hd rfl
        rw [hc] at hd
        cases hd
      rw [enoughFuel, value_scalar _ _ (hother _ rfl) (hother _ rfl) (hother _ rfl)]
      exact isMalformed_scalar room hletter (hother _ rfl) rest
  obtain ⟨cause, left, hcause⟩ := hvalue
  unfold readWithin
  split
  · exact ⟨_, _, rfl⟩
  · rw [hcause]
    exact ⟨_, _, rfl⟩

/-- **A text is refused only for what stands in it.** -/
theorem hasCause_of_readWithin {room : Room} {text : List Char} {refusal : Refusal}
    (h : readWithin room text = .error (.refused refusal)) : HasCause room text refusal := by
  unfold readWithin at h
  split at h
  · cases h
  · split at h
    · rename_i hvalue
      cases h
      have htakes := (readersTake (enoughFuel text)).value room (skipGap text)
      rw [hvalue] at htakes
      exact (htakes.of_suffix (skipGap_suffix text)).hasCause
    · split at h
      · cases h
      · cases h

end CompactShell.Json
