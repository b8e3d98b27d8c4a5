import CompactShell.Proofs.Rule.Changes
import CompactShell.Proofs.Rule.Exclusive

/-!
# Rules in front of an operator

Most rules never ask where the simple command ends. They take words off the front of the line, and
no word of a phrase has a character that an operator starts with, so what they take stands in front
of the first operator (`afterPhrase?_append`). What a rule leaves is then the same in front of the
operator as in the simple command by itself, and the operator stays behind it
(`Action.exists_seam_apply`).

There is one exception. A word that a rule drops has to be followed by white space or nothing, and
an operator is neither (`Action.not_seam_of_dropsLast`).
-/

namespace CompactShell.Rule

open Search Shell Text

/-! ## Seams -/

/-- What stands behind a simple command: white space, and then an operator, or the digits of its
descriptor, which need the white space. -/
structure IsSeam (white tail : List Char) : Prop where
  blank : ∀ c ∈ white, isSpace c = true
  head : ∃ c rest, tail = c :: rest ∧ (c ∈ specials ∨ isDigit c = true ∧ white ≠ [])

/-- A word of a phrase: plain, without white space, and no number. -/
def isPhraseWord (word : String) : Bool :=
  isOwn word && isSolid word && word.toList.head?.any (!isDigit ·)

section Seam

variable {white tail : List Char} {word : String} {phrase : Phrase}

theorem not_isDigit_of_isSpace {c : Char} (h : isSpace c = true) : isDigit c = false := by
  unfold isDigit
  split
  · have hascii : covers [(48, 57)] c = false := not_covers_of_apart (by decide) h
    rw [Bool.eq_false_iff, ne_eq, covers_iff] at hascii
    rw [Bool.eq_false_iff]
    intro hdigit
    simp only [Char.isDigit, Bool.and_eq_true, decide_eq_true_eq, UInt32.le_iff_toNat_le] at hdigit
    exact hascii ⟨(48, 57), List.mem_singleton_self _, hdigit.1, hdigit.2⟩
  · exact not_covers_of_apart (by decide +kernel) h

theorem not_isDigit_of_isAlpha {c : Char} (h : c.isAlpha = true) : isDigit c = false := by
  simp only [isAlpha_iff, covers_iff, List.mem_cons, List.not_mem_nil, or_false,
    exists_eq_or_imp, exists_eq_left] at h
  have hlow : 65 ≤ c.toNat := by omega
  have hhigh : c.toNat ≤ 122 := by omega
  rw [isDigit, if_pos (by omega), Bool.eq_false_iff]
  intro hdigit
  simp only [Char.isDigit, Bool.and_eq_true, decide_eq_true_eq, UInt32.le_iff_toNat_le] at hdigit
  have hnine : c.toNat ≤ 57 := hdigit.2
  omega

theorem not_isSpace_of_mem_specials {c : Char} (h : c ∈ specials) : isSpace c = false := by
  have hall : specials.all (fun c => !isSpace c) = true := by decide
  have hc := List.all_eq_true.1 hall c h
  rwa [Bool.not_eq_true'] at hc

theorem IsSeam.not_isSpace_head (h : IsSeam white tail) : ∀ c ∈ tail.head?, isSpace c = false := by
  obtain ⟨c, rest, rfl, hc⟩ := h.head
  rintro d ⟨⟩
  rcases hc with hc | ⟨hc, -⟩
  · exact not_isSpace_of_mem_specials hc
  · rw [Bool.eq_false_iff]
    intro hspace
    rw [not_isDigit_of_isSpace hspace] at hc
    cases hc

theorem IsSeam.trimStart_eq (h : IsSeam white tail) : trimStart (white ++ tail) = tail := by
  rw [trimStart, List.dropWhile_append_of_pos h.blank]
  obtain ⟨c, rest, rfl, -⟩ := id h.head
  rw [List.dropWhile_cons_of_neg]
  rw [h.not_isSpace_head c rfl]
  exact Bool.false_ne_true

theorem isPhraseWord_spec (h : isPhraseWord word = true) :
    (∀ c ∈ word.toList, isPlain c = true ∧ isSpace c = false) ∧
      ∃ c rest, word.toList = c :: rest ∧ isDigit c = false := by
  simp only [isPhraseWord, Bool.and_eq_true, isSolid, List.all_eq_true, Bool.not_eq_true'] at h
  obtain ⟨⟨hown, hsolid⟩, hhead⟩ := h
  refine ⟨fun c hc => ⟨plainText_of_isOwn hown c hc, hsolid c hc⟩, ?_⟩
  cases hw : word.toList with
  | nil =>
    rw [hw] at hhead
    cases hhead
  | cons c rest =>
    rw [hw] at hhead
    exact ⟨c, rest, rfl, by simpa using hhead⟩

/-! ## Phrases -/

/-- A word does not go on behind a seam. -/
theorem afterWord?_append (hword : isPhraseWord word = true) (hseam : IsSeam white tail)
    (text : List Char) :
    afterWord? word.toList (text ++ (white ++ tail)) =
      (afterWord? word.toList text).map (· ++ (white ++ tail)) := by
  have hall := (isPhraseWord_spec hword).1
  generalize word.toList = letters at hall
  induction letters generalizing text with
  | nil =>
    rw [afterWord?, afterWord?]
    rfl
  | cons w letters ih =>
    obtain ⟨hplain, hsolid⟩ := hall w (List.mem_cons_self ..)
    cases text with
    | cons c text =>
      rw [List.cons_append, afterWord?, afterWord?]
      split
      · exact ih text fun c hc => hall c (List.mem_cons_of_mem _ hc)
      · rfl
    | nil =>
      -- the letter would have to be white, an operator or a digit behind no white space
      have hfirst : ∃ c rest, white ++ tail = c :: rest ∧ w ≠ c := by
        cases white with
        | cons c white =>
          refine ⟨c, white ++ tail, rfl, ?_⟩
          rintro rfl
          rw [hseam.blank w (List.mem_cons_self ..)] at hsolid
          cases hsolid
        | nil =>
          obtain ⟨c, rest, rfl, hc | ⟨-, hnil⟩⟩ := hseam.head
          · exact ⟨c, rest, rfl, ne_of_isPlain hplain hc⟩
          · exact absurd rfl hnil
      obtain ⟨c, rest, heq, hne⟩ := hfirst
      rw [List.nil_append, heq, afterWord?, afterWord?, if_neg hne]
      rfl

/-- No word starts behind a seam. -/
theorem afterWord?_tail (hword : isPhraseWord word = true) (hseam : IsSeam white tail) :
    afterWord? word.toList tail = none := by
  obtain ⟨hall, w, letters, hletters, hdigit⟩ := isPhraseWord_spec hword
  obtain ⟨c, rest, rfl, hc⟩ := hseam.head
  rw [hletters] at hall ⊢
  have hne : w ≠ c := by
    rcases hc with hc | ⟨hc, -⟩
    · exact ne_of_isPlain (hall w (List.mem_cons_self ..)).1 hc
    · rintro rfl
      rw [hc] at hdigit
      cases hdigit
  rw [afterWord?, if_neg hne]

theorem afterPhrase?_of_afterWord?_eq_none {text : List Char}
    (h : afterWord? word.toList text = none) (phrase : Phrase) :
    afterPhrase? (word :: phrase) text = none := by
  cases phrase with
  | nil =>
    rw [afterPhrase?]
    exact h
  | cons next phrase =>
    rw [afterPhrase?]
    · rw [h]
    · simp

theorem afterPhrase?_cons_cons (word next : String) (phrase : Phrase) (text : List Char) :
    afterPhrase? (word :: next :: phrase) text =
      (afterWord? word.toList text).bind fun rest =>
        if startsWithSpace rest then afterPhrase? (next :: phrase) (trimStart rest) else none := by
  rw [afterPhrase?]
  · cases afterWord? word.toList text with
    | none => rfl
    | some rest => rfl
  · simp

theorem startsWithSpace_append {text : List Char} (h : text ≠ []) (more : List Char) :
    startsWithSpace (text ++ more) = startsWithSpace text := by
  cases text with
  | nil => exact absurd rfl h
  | cons c text => rfl

theorem trimStart_append {text : List Char} (h : trimStart text ≠ []) (more : List Char) :
    trimStart (text ++ more) = trimStart text ++ more := by
  have hempty : (text.dropWhile isSpace).isEmpty = false := List.isEmpty_eq_false_iff.2 h
  rw [trimStart, List.dropWhile_append, hempty, if_neg Bool.false_ne_true]
  rfl

theorem IsSeam.trimStart_append (h : IsSeam white tail) {text : List Char}
    (hwhite : trimStart text = []) : trimStart (text ++ (white ++ tail)) = tail := by
  have hempty : (text.dropWhile isSpace).isEmpty = true := List.isEmpty_iff.2 hwhite
  rw [trimStart, List.dropWhile_append, hempty, if_pos rfl]
  exact h.trimStart_eq

/-- **A phrase does not reach behind a seam.** -/
theorem afterPhrase?_append (hphrase : phrase.all isPhraseWord = true)
    (hseam : IsSeam white tail) (text : List Char) :
    afterPhrase? phrase (text ++ (white ++ tail)) =
      (afterPhrase? phrase text).map (· ++ (white ++ tail)) := by
  induction phrase generalizing text with
  | nil =>
    rw [afterPhrase?, afterPhrase?]
    rfl
  | cons word phrase ih =>
    rw [List.all_cons, Bool.and_eq_true] at hphrase
    cases phrase with
    | nil =>
      rw [afterPhrase?, afterPhrase?]
      exact afterWord?_append hphrase.1 hseam text
    | cons next phrase =>
      have hnext : isPhraseWord next = true := by
        have hrest := hphrase.2
        rw [List.all_cons, Bool.and_eq_true] at hrest
        exact hrest.1
      rw [afterPhrase?_cons_cons, afterPhrase?_cons_cons, afterWord?_append hphrase.1 hseam]
      cases afterWord? word.toList text with
      | none => rfl
      | some rest =>
        rw [Option.map_some, Option.bind_some, Option.bind_some]
        by_cases hwhite : trimStart rest = []
        · -- the next word would have to stand behind the seam
          have hempty : afterWord? next.toList [] = none := by
            obtain ⟨-, c, letters, hletters, -⟩ := isPhraseWord_spec hnext
            rw [hletters, afterWord?]
          rw [hseam.trimStart_append hwhite, hwhite,
            afterPhrase?_of_afterWord?_eq_none (afterWord?_tail hnext hseam),
            afterPhrase?_of_afterWord?_eq_none hempty, ite_self, ite_self]
          rfl
        · have hne : rest ≠ [] := by
            rintro rfl
            exact hwhite rfl
          rw [Rule.trimStart_append hwhite, startsWithSpace_append hne, ih hphrase.2]
          split
          · rfl
          · rfl

theorem afterAny?_anywhere_append {phrases : List Phrase}
    (hphrases : phrases.all (fun phrase => phrase.all isPhraseWord) = true)
    (hseam : IsSeam white tail) (text : List Char) :
    afterAny? phrases .anywhere (text ++ (white ++ tail)) =
      (afterAny? phrases .anywhere text).map (· ++ (white ++ tail)) := by
  have hany : ∀ rest : Option (List Char), rest.filter Stop.anywhere.allows = rest := by
    intro rest
    cases rest with
    | none => rfl
    | some rest => rfl
  unfold afterAny?
  induction phrases with
  | nil => rfl
  | cons phrase phrases ih =>
    rw [List.all_cons, Bool.and_eq_true] at hphrases
    rw [List.findSome?_cons, List.findSome?_cons, ih hphrases.2, hany, hany,
      afterPhrase?_append hphrases.1 hseam]
    cases afterPhrase? phrase text with
    | none => rfl
    | some rest => rfl

/-! ## What is left behind a phrase -/

theorem trimStart_ne_nil {text : List Char} (h : text ≠ [])
    (hlast : ∀ c ∈ text.getLast?, isSpace c = false) : trimStart text ≠ [] := by
  intro hnil
  obtain ⟨init, c, rfl⟩ := (List.eq_nil_or_concat' text).resolve_left h
  have hc := List.dropWhile_eq_nil_iff.1 hnil c (by simp)
  rw [hlast c (by simp)] at hc
  cases hc

def Extent.isSeparable : Extent → Bool
  | .word extra => isPhraseWord extra
  | _ => true

/-- The word that is dropped is all that is left. -/
def Extent.dropsAll : Extent → List Char → Bool
  | .word extra, rest => startsWithSpace rest && trimStart rest == extra.toList
  | _, _ => false

theorem edge_allows_append {text : List Char} (h : text ≠ []) (more : List Char) :
    Stop.edge.allows (text ++ more) = Stop.edge.allows text := by
  cases text with
  | nil => exact absurd rfl h
  | cons c text => rfl

theorem startsWithSpace_of_blank (hwhite : ∀ c ∈ white, isSpace c = true) (hne : white ≠ [])
    (more : List Char) : startsWithSpace (white ++ more) = true := by
  obtain ⟨c, rest, rfl⟩ := List.exists_cons_of_ne_nil hne
  exact hwhite c (List.mem_cons_self ..)

/-- **What is replaced along with a phrase stands in front of the seam**, but for a dropped word
that the seam does not let go. -/
theorem Extent.exists_seam_trim {extent : Extent} (hextent : extent.isSeparable = true)
    (hseam : IsSeam white tail) {rest : List Char}
    (hlast : ∀ c ∈ rest.getLast?, isSpace c = false)
    (hkeeps : extent.dropsAll rest = true → white ≠ []) :
    ∃ gap, (∀ c ∈ gap, isSpace c = true) ∧
      extent.trim (rest ++ (white ++ tail)) = extent.trim rest ++ (gap ++ tail) := by
  cases extent with
  | phrase => exact ⟨white, hseam.blank, rfl⟩
  | space =>
    by_cases hrest : rest = []
    · subst hrest
      exact ⟨[], by simp, hseam.trimStart_eq⟩
    · exact ⟨white, hseam.blank, trimStart_append (trimStart_ne_nil hrest hlast) _⟩
  | word extra =>
    refine ⟨white, hseam.blank, ?_⟩
    by_cases hrest : rest = []
    · subst hrest
      have hnone : afterWord? extra.toList (trimStart (white ++ tail)) = none := by
        rw [hseam.trimStart_eq]
        exact afterWord?_tail hextent hseam
      rw [List.nil_append, Extent.trim, Extent.trim, hnone]
      exact ite_self _
    · rw [Extent.trim, Extent.trim, startsWithSpace_append hrest,
        trimStart_append (trimStart_ne_nil hrest hlast), afterWord?_append hextent hseam]
      split
      · rename_i hspace
        cases hword : afterWord? extra.toList (trimStart rest) with
        | none => rfl
        | some left =>
          have hallows : Stop.edge.allows (left ++ (white ++ tail)) = Stop.edge.allows left := by
            by_cases hleft : left = []
            · subst hleft
              have hall : Extent.dropsAll (.word extra) rest = true := by
                rw [afterWord?_eq_some_iff, List.append_nil] at hword
                rw [Extent.dropsAll, hspace, hword, Bool.true_and, beq_self_eq_true]
              rw [Stop.allows, List.nil_append,
                startsWithSpace_of_blank hseam.blank (hkeeps hall) tail, Bool.or_true]
              rfl
            · exact edge_allows_append hleft _
          rw [Option.map_some, Option.filter_some, Option.filter_some, hallows]
          split
          · rfl
          · rfl
      · rfl

/-! ## Guards -/

/-- What the guard accepts starts with the phrase and white space. -/
def Guard.demands (guard : Guard) (phrase : Phrase) : Bool :=
  match guard with
  | .phrase phrases stop =>
    phrases.all fun other =>
      other == phrase && stop == .space ||
        phrase.isPrefixOf other && decide (0 < phrase.length ∧ phrase.length < other.length)
  | .subcommand program _ _ => phrase == [program.name]
  | .lineCount => false

theorem exists_of_afterPhrase?_append {phrase more : Phrase} (hphrase : phrase ≠ [])
    (hmore : more ≠ []) {text rest : List Char}
    (h : afterPhrase? (phrase ++ more) text = some rest) :
    ∃ left, afterPhrase? phrase text = some left ∧ startsWithSpace left = true := by
  induction phrase generalizing text with
  | nil => exact absurd rfl hphrase
  | cons word phrase ih =>
    obtain ⟨next, others, hnext⟩ : ∃ next others, phrase ++ more = next :: others := by
      cases phrase with
      | nil => exact List.exists_cons_of_ne_nil hmore
      | cons next phrase => exact ⟨next, phrase ++ more, rfl⟩
    rw [List.cons_append, hnext, afterPhrase?_cons_cons] at h
    obtain ⟨behind, hword, hbehind⟩ := Option.bind_eq_some_iff.1 h
    rw [Option.ite_none_right_eq_some] at hbehind
    cases phrase with
    | nil =>
      rw [afterPhrase?]
      exact ⟨behind, hword, hbehind.1⟩
    | cons second phrase =>
      obtain ⟨left, hleft, hspace⟩ := ih (by simp) (hnext ▸ hbehind.2)
      refine ⟨left, ?_, hspace⟩
      rw [afterPhrase?_cons_cons, hword, Option.bind_some, if_pos hbehind.1]
      exact hleft

theorem Guard.exists_of_demands {guard : Guard} (hdemands : guard.demands phrase = true)
    {text : List Char} (h : guard.accepts text = true) :
    ∃ left, afterPhrase? phrase text = some left ∧ startsWithSpace left = true := by
  cases guard with
  | phrase phrases stop =>
    obtain ⟨rest, hrest⟩ := Option.isSome_iff_exists.1 h
    obtain ⟨other, hmem, hother⟩ := List.exists_of_findSome?_eq_some hrest
    obtain ⟨hafter, hallows⟩ := Option.filter_eq_some_iff.1 hother
    have hcase := List.all_eq_true.1 hdemands other hmem
    simp only [Bool.or_eq_true, Bool.and_eq_true, beq_iff_eq, List.isPrefixOf_iff_prefix,
      decide_eq_true_eq] at hcase
    rcases hcase with ⟨rfl, rfl⟩ | ⟨⟨more, rfl⟩, hpos, hlonger⟩
    · exact ⟨rest, hafter, hallows⟩
    · rw [List.length_append] at hlonger
      exact exists_of_afterPhrase?_append (List.length_pos_iff.1 hpos)
        (List.length_pos_iff.1 (by omega)) hafter
  | subcommand program allowed except =>
    obtain rfl := beq_iff_eq.1 hdemands
    simp only [Guard.accepts, Bool.and_eq_true] at h
    obtain ⟨rest, hrest⟩ := Option.isSome_iff_exists.1 h.1.1
    obtain ⟨other, hmem, hother⟩ := List.exists_of_findSome?_eq_some hrest
    rw [List.mem_singleton] at hmem
    subst hmem
    obtain ⟨hafter, hallows⟩ := Option.filter_eq_some_iff.1 hother
    exact ⟨rest, hafter, hallows⟩
  | lineCount => cases hdemands

/-- A phrase that may stand alone is found in the simple command too. -/
theorem Guard.accepts_of_edge {phrases : List Phrase}
    (hphrases : phrases.all (fun phrase => phrase.all isPhraseWord) = true)
    (hseam : IsSeam white tail) {text : List Char}
    (h : (Guard.phrase phrases .edge).accepts (text ++ (white ++ tail)) = true) :
    (Guard.phrase phrases .edge).accepts text = true := by
  rw [accepts, afterAny?, List.findSome?_isSome_iff] at h ⊢
  obtain ⟨phrase, hmem, hphrase⟩ := h
  refine ⟨phrase, hmem, ?_⟩
  obtain ⟨rest, hrest⟩ := Option.isSome_iff_exists.1 hphrase
  obtain ⟨hafter, hallows⟩ := Option.filter_eq_some_iff.1 hrest
  rw [afterPhrase?_append (List.all_eq_true.1 hphrases phrase hmem) hseam] at hafter
  obtain ⟨left, hleft, rfl⟩ := Option.map_eq_some_iff.1 hafter
  have hedge : Stop.edge.allows left = true := by
    by_cases hnil : left = []
    · rw [hnil]
      rfl
    · rwa [edge_allows_append hnil] at hallows
  rw [hleft, Option.filter_some, if_pos hedge]
  rfl

/-! ## Translations -/

section Translation

variable {body : List Char} (hfree : findOperator (splitAtOperator body).1 = none)

include hfree

/-- A translation looks at the simple command only and puts the rest of the line behind it. -/
theorem translateGrep?_eq_map : translateGrep? body =
    (translateGrep? (splitAtOperator body).1).map (· ++ (splitAtOperator body).2) := by
  rw [translateGrep?, translateGrep?, splitAtOperator_of_eq_none hfree, Option.map_map]
  simp only [Function.comp_def, List.append_nil]

theorem translateFind?_eq_map : translateFind? body =
    (translateFind? (splitAtOperator body).1).map (· ++ (splitAtOperator body).2) := by
  rw [translateFind?, translateFind?, splitAtOperator_of_eq_none hfree, Option.map_bind]
  simp only [Function.comp_def, Option.map_map, List.append_nil]

theorem translateHead?_eq_map : translateHead? body =
    (translateHead? (splitAtOperator body).1).map (· ++ (splitAtOperator body).2) := by
  rw [translateHead?, translateHead?, splitAtOperator_of_eq_none hfree, Option.map_bind]
  simp only [Function.comp_def, Option.map_map, List.append_nil]

end Translation

/-! ## Rules -/

/-- The words that the rule looks for are words of phrases, and what its action needs behind its
phrase is demanded by its guard. -/
def isSeparable (rule : Rule) : Bool :=
  (match rule.guard with
    | .phrase phrases _ => phrases.all fun phrase => phrase.all isPhraseWord
    | _ => true) &&
  match rule.action with
  | .replace phrases .anywhere extent _ =>
    phrases.all (fun phrase => phrase.all isPhraseWord) && extent.isSeparable
  | .replace [phrase] .space extent _ =>
    phrase.all isPhraseWord && extent.isSeparable && rule.guard.demands phrase
  | .replace .. => false
  | _ => true

theorem table_isSeparable : ∀ rule ∈ table, rule.isSeparable = true := by
  decide +kernel

/-- The word that the action drops is the last one of the command. -/
def Action.dropsLast : Action → List Char → Bool
  | .replace phrases stop extent _, command => (afterAny? phrases stop command).any extent.dropsAll
  | _, _ => false

variable {rule : Rule} {part : List Char}

/-- **What an action takes off a line stands in front of the seam.** -/
theorem exists_afterAny?_of_isSeparable (hrule : rule.isSeparable = true)
    {phrases : List Phrase} {stop : Stop} {extent : Extent} {text : String}
    (haction : rule.action = .replace phrases stop extent text) (hseam : IsSeam white tail)
    (haccepts : rule.guard.accepts part = true) :
    extent.isSeparable = true ∧
      afterAny? phrases stop (part ++ (white ++ tail)) =
        (afterAny? phrases stop part).map (· ++ (white ++ tail)) := by
  rw [isSeparable, haction, Bool.and_eq_true] at hrule
  have haction := hrule.2
  split at haction
  · rename_i heq
    cases heq
    rw [Bool.and_eq_true] at haction
    exact ⟨haction.2, afterAny?_anywhere_append haction.1 hseam part⟩
  · rename_i phrase _ _ heq
    cases heq
    simp only [Bool.and_eq_true] at haction
    obtain ⟨⟨hwords, hextent⟩, hdemands⟩ := haction
    obtain ⟨left, hleft, hspace⟩ := Guard.exists_of_demands hdemands haccepts
    have hne : left ≠ [] := by
      rintro rfl
      cases hspace
    have hfront : Stop.space.allows left = true := hspace
    have hbehind : Stop.space.allows (left ++ (white ++ tail)) = true := by
      rw [Stop.allows, startsWithSpace_append hne, hspace]
    refine ⟨hextent, ?_⟩
    simp only [afterAny?, List.findSome?_singleton, afterPhrase?_append hwords hseam, hleft,
      Option.map_some, Option.filter_some, if_pos hbehind, if_pos hfront]
  · cases haction
  · rename_i hnot
    exact absurd rfl (hnot _ _ _ _)

theorem suffix_of_afterPhrase? {phrase : Phrase} {text rest : List Char}
    (h : afterPhrase? phrase text = some rest) : rest <:+ text := by
  induction phrase generalizing text with
  | nil =>
    obtain rfl := Option.some.inj h
    exact List.suffix_rfl
  | cons word phrase ih =>
    cases phrase with
    | nil =>
      rw [afterPhrase?, afterWord?_eq_some_iff] at h
      exact ⟨_, h.symm⟩
    | cons next phrase =>
      rw [afterPhrase?_cons_cons] at h
      obtain ⟨behind, hword, hbehind⟩ := Option.bind_eq_some_iff.1 h
      rw [Option.ite_none_right_eq_some] at hbehind
      rw [afterWord?_eq_some_iff] at hword
      exact ((ih hbehind.2).trans (List.dropWhile_suffix _)).trans ⟨_, hword.symm⟩

theorem suffix_of_afterAny? {phrases : List Phrase} {stop : Stop} {text rest : List Char}
    (h : afterAny? phrases stop text = some rest) : rest <:+ text := by
  obtain ⟨phrase, -, hphrase⟩ := List.exists_of_findSome?_eq_some h
  exact suffix_of_afterPhrase? (Option.filter_eq_some_iff.1 hphrase).1

theorem getLast?_of_suffix {rest text : List Char} (h : rest <:+ text) :
    ∀ c ∈ rest.getLast?, c ∈ text.getLast? := by
  obtain ⟨front, rfl⟩ := h
  intro c hc
  rw [List.getLast?_append, Option.mem_def.1 hc]
  rfl

/-- Replacing a phrase does in front of a seam what it does to the simple command by itself. -/
theorem exists_seam_replace (hrule : rule ∈ table) {phrases : List Phrase} {stop : Stop}
    {extent : Extent} {text : String} (haction : rule.action = .replace phrases stop extent text)
    (hseam : IsSeam white tail) (hlast : ∀ c ∈ part.getLast?, isSpace c = false)
    (haccepts : rule.guard.accepts part = true)
    (hchanges : rule.action.apply (part ++ (white ++ tail)) ≠ part ++ (white ++ tail))
    (hkeeps : rule.action.dropsLast part = true → white ≠ []) :
    (∃ new, rule.action.apply part = "rtk ".toList ++ new) ∧
      ∃ gap, (∀ c ∈ gap, isSpace c = true) ∧
        rule.action.apply (part ++ (white ++ tail)) = rule.action.apply part ++ (gap ++ tail) := by
  have hproper := table_isProper rule hrule
  obtain ⟨hextent, hafter⟩ :=
    exists_afterAny?_of_isSeparable (table_isSeparable rule hrule) haction hseam haccepts
  rw [haction] at hchanges hkeeps ⊢
  rw [Action.apply, hafter] at hchanges
  rw [Action.apply, Action.apply, hafter]
  cases hrest : afterAny? phrases stop part with
  | none =>
    rw [hrest] at hchanges
    exact absurd rfl hchanges
  | some rest =>
    have hend : ∀ c ∈ rest.getLast?, isSpace c = false := fun c hc =>
      hlast c (getLast?_of_suffix (suffix_of_afterAny? hrest) c hc)
    have hdrops : extent.dropsAll rest = true → white ≠ [] := by
      intro hall
      refine hkeeps ?_
      rw [Action.dropsLast, hrest]
      exact hall
    obtain ⟨gap, hgap, htrim⟩ := Extent.exists_seam_trim hextent hseam hend hdrops
    have htool : startsWith "rtk " text.toList = true := by
      simp only [isProper, haction, Action.isProper, Bool.and_eq_true] at hproper
      exact hproper.2.1.2
    obtain ⟨own, hown⟩ := startsWith_iff.1 htool
    refine ⟨⟨own ++ extent.trim rest, ?_⟩, gap, hgap, ?_⟩
    · dsimp only
      rw [hown, List.append_assoc]
    · rw [Option.map_some]
      dsimp only
      rw [htrim, List.append_assoc]

/-- So does a translation, which cuts the line at the seam. -/
theorem exists_seam_translated {translated : Option (List Char)}
    (hchange : ∀ {new}, translated = some new → Change part new) {body : List Char}
    (hne : (translated.map (· ++ ' ' :: tail)).getD body ≠ body) :
    (∃ new, translated.getD part = "rtk ".toList ++ new) ∧
      ∃ gap, (∀ c ∈ gap, isSpace c = true) ∧
        (translated.map (· ++ ' ' :: tail)).getD body = translated.getD part ++ (gap ++ tail) := by
  cases translated with
  | none => exact absurd rfl hne
  | some new => exact ⟨(hchange rfl).startsTool, [' '], List.forall_mem_singleton.2 rfl, rfl⟩

/-- **A rule does in front of a seam what it does to the simple command by itself.** -/
theorem exists_seam_apply (hrule : rule ∈ table) (hseam : IsSeam white tail)
    (hlast : ∀ c ∈ part.getLast?, isSpace c = false)
    (hsplit : splitAtOperator (part ++ (white ++ tail)) = (part, ' ' :: tail))
    (hfree : findOperator part = none) (haccepts : rule.guard.accepts part = true)
    (hchanges : rule.action.apply (part ++ (white ++ tail)) ≠ part ++ (white ++ tail))
    (hkeeps : rule.action.dropsLast part = true → white ≠ []) :
    (∃ new, rule.action.apply part = "rtk ".toList ++ new) ∧
      ∃ gap, (∀ c ∈ gap, isSpace c = true) ∧
        rule.action.apply (part ++ (white ++ tail)) = rule.action.apply part ++ (gap ++ tail) := by
  have hpart : findOperator (splitAtOperator (part ++ (white ++ tail))).1 = none := by
    rw [hsplit]
    exact hfree
  cases haction : rule.action with
  | wrap => exact ⟨⟨part, rfl⟩, white, hseam.blank, rfl⟩
  | replace phrases stop extent text =>
    rw [← haction]
    exact exists_seam_replace hrule haction hseam hlast haccepts hchanges hkeeps
  | grep =>
    rw [haction, Action.apply, translateGrep?_eq_map hpart, hsplit] at hchanges
    rw [Action.apply, Action.apply, translateGrep?_eq_map hpart, hsplit]
    exact exists_seam_translated change_of_translateGrep? hchanges
  | find =>
    rw [haction, Action.apply, translateFind?_eq_map hpart, hsplit] at hchanges
    rw [Action.apply, Action.apply, translateFind?_eq_map hpart, hsplit]
    exact exists_seam_translated change_of_translateFind? hchanges
  | head =>
    rw [haction, Action.apply, translateHead?_eq_map hpart, hsplit] at hchanges
    rw [Action.apply, Action.apply, translateHead?_eq_map hpart, hsplit]
    exact exists_seam_translated change_of_translateHead? hchanges

/-- A dropped word that is all that is left leaves nothing. -/
theorem Extent.trim_of_dropsAll {extent : Extent} {rest : List Char}
    (hall : extent.dropsAll rest = true) : extent.trim rest = [] := by
  cases extent with
  | phrase | space => cases hall
  | word extra =>
    rw [Extent.dropsAll, Bool.and_eq_true, beq_iff_eq] at hall
    have hself : afterWord? extra.toList extra.toList = some [] :=
      afterWord?_eq_some_iff.2 (List.append_nil _).symm
    rw [Extent.trim, if_pos hall.1, hall.2, hself]
    rfl

/-- With an operator directly behind it, it is not dropped. -/
theorem Extent.trim_append_of_dropsAll {extent : Extent} (hextent : extent.isSeparable = true)
    (hseam : IsSeam [] tail) {rest : List Char} (hall : extent.dropsAll rest = true) :
    extent.trim (rest ++ tail) = rest ++ tail := by
  cases extent with
  | phrase | space => cases hall
  | word extra =>
    rw [Extent.dropsAll, Bool.and_eq_true, beq_iff_eq] at hall
    obtain ⟨hspace, hword⟩ := hall
    have hne : rest ≠ [] := by
      rintro rfl
      cases hspace
    obtain ⟨-, c, letters, hletters, -⟩ := isPhraseWord_spec hextent
    have hextra : trimStart rest ≠ [] := by
      rw [hword, hletters]
      exact List.cons_ne_nil _ _
    have hstop : Stop.edge.allows tail = false := by
      obtain ⟨d, more, rfl, -⟩ := id hseam.head
      exact hseam.not_isSpace_head d rfl
    have hself : afterWord? extra.toList (extra.toList ++ tail) = some tail :=
      afterWord?_eq_some_iff.2 rfl
    rw [Extent.trim, startsWithSpace_append hne, if_pos hspace, trimStart_append hextra, hword,
      hself, Option.filter_some, hstop, if_neg Bool.false_ne_true]
    rfl

/-- It is no white space. -/
theorem Extent.not_forall_isSpace_of_dropsAll {extent : Extent}
    (hextent : extent.isSeparable = true) {rest : List Char} (hall : extent.dropsAll rest = true) :
    ¬ ∀ c ∈ rest, isSpace c = true := by
  cases extent with
  | phrase | space => cases hall
  | word extra =>
    rw [Extent.dropsAll, Bool.and_eq_true, beq_iff_eq] at hall
    obtain ⟨hsolid, c, letters, hletters, -⟩ := isPhraseWord_spec hextent
    have hc : c ∈ trimStart rest := by
      rw [hall.2, hletters]
      exact List.mem_cons_self ..
    intro hspaces
    have hfirst := (hsolid c (hall.2 ▸ hc)).2
    rw [hspaces c ((List.dropWhile_suffix isSpace).subset hc)] at hfirst
    cases hfirst

/-- A word that an operator stands directly behind is not dropped, though it is where nothing
follows. -/
theorem not_seam_of_dropsLast (hrule : rule.isSeparable = true) (hseam : IsSeam [] tail)
    (haccepts : rule.guard.accepts part = true) (hdrops : rule.action.dropsLast part = true)
    {gap : List Char} (hgap : ∀ c ∈ gap, isSpace c = true) :
    rule.action.apply (part ++ tail) ≠ rule.action.apply part ++ (gap ++ tail) := by
  cases haction : rule.action with
  | wrap | grep | find | head =>
    rw [haction] at hdrops
    cases hdrops
  | replace phrases stop extent text =>
    rw [haction, Action.dropsLast, Option.any_eq_true] at hdrops
    obtain ⟨rest, hrest, hall⟩ := hdrops
    obtain ⟨hextent, hafter⟩ := exists_afterAny?_of_isSeparable hrule haction hseam haccepts
    rw [List.nil_append, hrest, Option.map_some] at hafter
    intro heq
    -- what is dropped in the one command and kept in the other would be the gap
    simp only [Action.apply, hafter, hrest, Extent.trim_of_dropsAll hall,
      Extent.trim_append_of_dropsAll hextent hseam hall, List.append_nil,
      List.append_cancel_left_eq, List.append_cancel_right_eq] at heq
    rw [← heq] at hgap
    exact Extent.not_forall_isSpace_of_dropsAll hextent hall hgap

end Seam

end CompactShell.Rule
