import CompactShell.Proofs.Search.Readings
import CompactShell.Proofs.Shell.Single

/-!
# Options among the positional words

It makes no difference where an option stands among the positional words. An option comes with the
word that it takes for its value (`IsUnit`), and the reader takes such a unit as a whole, whatever
stands behind it (`IsUnit.readItems?_append`). So the patterns and the options of a search come from
its units alone, and the positional words are those that were given
(`Interleaving.gathers_readItems?`).

`translateGrep?_eq_of_interleaving` says it of the commands: with the same units in one order and
the same positional words in one order, they are translated alike or not at all.
-/

namespace CompactShell.Search

open Rule Shell Text

/-! ## Interleavings -/

/-- The words of the units and the positional words, each in their order, and every unit in one
piece. -/
inductive Interleaving {α : Type} : List (List α) → List α → List α → Prop where
  | nil : Interleaving [] [] []
  | unit {unit : List α} {units : List (List α)} {positionals args : List α} :
      Interleaving units positionals args →
      Interleaving (unit :: units) positionals (unit ++ args)
  | positional {word : α} {units : List (List α)} {positionals args : List α} :
      Interleaving units positionals args →
      Interleaving units (word :: positionals) (word :: args)

namespace Interleaving

variable {α β : Type} {units : List (List α)} {positionals args : List α}

theorem map (f : α → β) (h : Interleaving units positionals args) :
    Interleaving (units.map (List.map f)) (positionals.map f) (args.map f) := by
  induction h with
  | nil => exact .nil
  | unit _ ih =>
    rw [List.map_cons, List.map_append]
    exact ih.unit
  | positional _ ih => exact ih.positional

/-- What holds of the units' words and of the positional words holds of all. -/
theorem forall_mem {p : α → Prop} (h : Interleaving units positionals args)
    (hunits : ∀ unit ∈ units, ∀ word ∈ unit, p word) (hpositionals : ∀ word ∈ positionals, p word) :
    ∀ word ∈ args, p word := by
  induction h with
  | nil => exact List.forall_mem_nil _
  | unit _ ih =>
    rw [List.forall_mem_cons] at hunits
    exact List.forall_mem_append.2 ⟨hunits.1, ih hunits.2 hpositionals⟩
  | positional _ ih =>
    rw [List.forall_mem_cons] at hpositionals
    exact List.forall_mem_cons.2 ⟨hpositionals.1, ih hunits hpositionals.2⟩

end Interleaving

/-! ## Units -/

/-- The value of the option is the next word. -/
def Reading.takesNext : Reading → Bool
  | .valueNext _ _ => true
  | _ => false

/-- A complete option. -/
inductive IsUnit (searcher : Searcher) : List Word → Prop where
  /-- An option that takes no further word. -/
  | alone {option : Word} : IsOption option.value →
      (Reading.ofWord searcher option).takesNext = false → IsUnit searcher [option]
  /-- An option with the word that it takes for its value. -/
  | valued {option value : Word} : IsOption option.value →
      (Reading.ofWord searcher option).takesNext = true → IsUnit searcher [option, value]
  /-- An option that has no place in the compact form, with a value. -/
  | rejected {option value : Word} : IsOption option.value →
      Reading.ofWord searcher option = .untranslatable → IsUnit searcher [option, value]

/-- **A unit is read as a whole.** Either there is no search with it, or it adds its parts to those
of the words behind it, and no positional word is among them. -/
theorem IsUnit.readItems?_append {searcher : Searcher} {unit : List Word}
    (h : IsUnit searcher unit) :
    (∀ args, readItems? searcher (unit ++ args) = none) ∨
      ∃ made, positionalsOf made = [] ∧ ∀ args,
        readItems? searcher (unit ++ args) = (readItems? searcher args).map (made ++ ·) := by
  cases h with
  | @alone option hoption htakes =>
    have hreads := optionReads_of_isOption searcher hoption
    cases hreading : Reading.ofWord searcher option with
    | items made =>
      rw [hreading] at hreads
      refine .inr ⟨made, hreads.positionalsOf_eq_nil, fun args => ?_⟩
      rw [List.singleton_append, readItems?.eq_def]
      simp only [hreading]
    | valueNext made role =>
      rw [hreading] at htakes
      cases htakes
    | endOfOptions =>
      rw [hreading] at hreads
      cases hreads
    | untranslatable =>
      refine .inl fun args => ?_
      rw [List.singleton_append, readItems?.eq_def]
      simp only [hreading]
  | @valued option value hoption htakes =>
    have hreads := optionReads_of_isOption searcher hoption
    cases hreading : Reading.ofWord searcher option with
    | valueNext made role =>
      rw [hreading] at hreads
      refine .inr ⟨made ++ [role.item value], ?_, fun args => ?_⟩
      · rw [positionalsOf_append, Role.positionalsOf_item, List.append_nil]
        exact hreads.positionalsOf_eq_nil
      · rw [List.cons_append, List.singleton_append, readItems?, hreading]
        simp only [List.append_assoc, List.singleton_append]
    | items made | endOfOptions | untranslatable =>
      rw [hreading] at htakes
      cases htakes
  | @rejected option value hoption hreading =>
    refine .inl fun args => ?_
    rw [List.cons_append, readItems?.eq_def]
    simp only [hreading]

/-! ## What is gathered -/

/-- The items hold the patterns and the options of `made`, and the positional words. -/
structure Gathers (positionals : List Word) (made items : List Item) : Prop where
  patterns : patternsOf items = patternsOf made
  positionals : positionalsOf items = positionals
  options : optionsOf items = optionsOf made

namespace Gathers

variable {positionals : List Word} {made items : List Item}

theorem nil : Gathers [] [] [] :=
  ⟨rfl, rfl, rfl⟩

/-- Parts without a positional word stand in front on both sides. -/
theorem unit {own : List Item} (hno : positionalsOf own = []) (h : Gathers positionals made items) :
    Gathers positionals (own ++ made) (own ++ items) := by
  refine ⟨?_, ?_, ?_⟩
  · rw [patternsOf_append, patternsOf_append, h.patterns]
  · rw [positionalsOf_append, hno, List.nil_append, h.positionals]
  · rw [optionsOf_append, optionsOf_append, h.options]

theorem positional (word : Word) (h : Gathers positionals made items) :
    Gathers (word :: positionals) made (.positional word :: items) :=
  ⟨h.patterns, congrArg (word :: ·) h.positionals, h.options⟩

/-- A query is made from what is gathered alone. -/
theorem ofItems?_eq {others : List Item} (h : Gathers positionals made items)
    (hothers : Gathers positionals made others) : Query.ofItems? items = Query.ofItems? others := by
  simp only [Query.ofItems?, h.patterns, h.positionals, h.options, hothers.patterns,
    hothers.positionals, hothers.options]

/-- A step on the parts is one on readings, which may both have failed. -/
theorem rel_map {more : List Word} {f g : List Item → List Item}
    (hstep : ∀ {made items}, Gathers positionals made items → Gathers more (f made) (g items))
    {made items : Option (List Item)} (h : Option.Rel (Gathers positionals) made items) :
    Option.Rel (Gathers more) (made.map f) (items.map g) := by
  cases h with
  | none => exact .none
  | some h => exact .some (hstep h)

theorem bind_ofItems?_eq {made items others : Option (List Item)}
    (h : Option.Rel (Gathers positionals) made items)
    (hothers : Option.Rel (Gathers positionals) made others) :
    items.bind Query.ofItems? = others.bind Query.ofItems? := by
  cases h with
  | none =>
    cases hothers with
    | none => rfl
  | some h =>
    cases hothers with
    | some hothers => exact h.ofItems?_eq hothers

end Gathers

/-- **What an interleaving is read as.** It is read exactly if its units can be read one behind the
other, and then it gives their patterns and options, and the positional words as they are. -/
theorem Interleaving.gathers_readItems? {searcher : Searcher} {units : List (List Word)}
    {positionals args : List Word} (h : Interleaving units positionals args)
    (hunits : ∀ unit ∈ units, IsUnit searcher unit)
    (hpositionals : ∀ word ∈ positionals, IsPositional word.value) :
    Option.Rel (Gathers positionals) (readItems? searcher units.flatten)
      (readItems? searcher args) := by
  induction h with
  | nil => exact .some .nil
  | @unit unit units positionals args _ ih =>
    rw [List.forall_mem_cons] at hunits
    have ih := ih hunits.2 hpositionals
    rw [List.flatten_cons]
    rcases hunits.1.readItems?_append with hnone | ⟨own, hno, hown⟩
    · rw [hnone, hnone]
      exact .none
    · rw [hown, hown]
      exact Gathers.rel_map (.unit hno) ih
  | @positional word units positionals args _ ih =>
    rw [List.forall_mem_cons] at hpositionals
    have ih := ih hunits hpositionals.2
    have hread : readItems? searcher (word :: args) =
        (readItems? searcher args).map (.positional word :: ·) := by
      rw [readItems?.eq_def]
      simp only [ofWord_of_isPositional searcher hpositionals.1, List.singleton_append]
    rw [hread, ← Option.map_id' (x := readItems? searcher units.flatten)]
    exact Gathers.rel_map (.positional word) ih

/-- Two interleavings of the same words ask for the same search. -/
theorem Query.ofWords?_eq_of_interleaving {searcher : Searcher} {name : Word}
    {units : List (List Word)} {positionals args others : List Word}
    (hname : Searcher.ofWord? name.value = some searcher)
    (hunits : ∀ unit ∈ units, IsUnit searcher unit)
    (hpositionals : ∀ word ∈ positionals, IsPositional word.value)
    (hargs : Interleaving units positionals args)
    (hothers : Interleaving units positionals others) :
    Query.ofWords? (name :: args) = Query.ofWords? (name :: others) := by
  rw [ofWords?_cons, ofWords?_cons, hname, Option.bind_some, Option.bind_some]
  -- both are compared with the units alone
  exact Gathers.bind_ofItems?_eq (hargs.gathers_readItems? hunits hpositionals)
    (hothers.gathers_readItems? hunits hpositionals)

/-! ## The commands -/

/-- The text is one word of a command, and no operator begins in it. -/
structure IsFreeWord (text : List Char) : Prop extends IsWord text where
  free : findOperator text = none

instance (text : List Char) : Decidable (IsFreeWord text) :=
  decidable_of_iff (IsWord text ∧ findOperator text = none)
    ⟨fun h => ⟨h.1, h.2⟩, fun h => ⟨h.1, h.2⟩⟩

theorem IsFreeWord.inert {text : List Char} (h : IsFreeWord text) : Inert text :=
  ⟨congrArg Scan.quoting h.whole, h.free⟩

/-- A command of such words with blanks between them is read as these words. -/
theorem translateGrep?_joinBlank {texts : List (List Char)} (h : ∀ t ∈ texts, IsFreeWord t) :
    translateGrep? (joinBlank texts) =
      (Query.ofWords? (texts.map Word.ofText)).map fun query => joinBlank query.texts := by
  have hfree := (inert_joinBlank fun t ht => (h t ht).inert).free
  rw [translateGrep?, splitAtOperator_of_eq_none hfree]
  dsimp only
  rw [words_joinBlank_of_isWord fun t ht => (h t ht).toIsWord]
  simp only [List.append_nil]

/-- **Options may stand anywhere.** A command of a searcher's name, complete options and positional
words has the same translation in every order that keeps the options and the positional words in
theirs. -/
theorem translateGrep?_eq_of_interleaving {searcher : Searcher} {program : List Char}
    {units : List (List (List Char))} {positionals args others : List (List Char)}
    (hprogram : IsFreeWord program)
    (hsearcher : Searcher.ofWord? (Word.ofText program).value = some searcher)
    (hunits : ∀ unit ∈ units, (∀ t ∈ unit, IsFreeWord t) ∧
      IsUnit searcher (unit.map Word.ofText))
    (hpositionals : ∀ t ∈ positionals, IsFreeWord t ∧ IsPositional (Word.ofText t).value)
    (hargs : Interleaving units positionals args)
    (hothers : Interleaving units positionals others) :
    translateGrep? (joinBlank (program :: args)) =
      translateGrep? (joinBlank (program :: others)) := by
  have hfree : ∀ {ts}, Interleaving units positionals ts → ∀ t ∈ program :: ts, IsFreeWord t :=
    fun hts => List.forall_mem_cons.2 ⟨hprogram,
      hts.forall_mem (fun unit hunit => (hunits unit hunit).1) fun t ht => (hpositionals t ht).1⟩
  rw [translateGrep?_joinBlank (hfree hargs), translateGrep?_joinBlank (hfree hothers),
    List.map_cons, List.map_cons]
  have hunitWords : ∀ unit ∈ units.map (List.map Word.ofText), IsUnit searcher unit :=
    List.forall_mem_map.2 fun unit hunit => (hunits unit hunit).2
  have hpositionalWords : ∀ word ∈ positionals.map Word.ofText, IsPositional word.value :=
    List.forall_mem_map.2 fun t ht => (hpositionals t ht).2
  rw [Query.ofWords?_eq_of_interleaving hsearcher hunitWords hpositionalWords
    (hargs.map Word.ofText) (hothers.map Word.ofText)]

/-- A path in front of all options, and the same path between them. -/
theorem translateGrep?_eq_of_interleaving_path :
    translateGrep? "grep src -A 3 -ie 'a b'".toList =
        translateGrep? "grep -A 3 src -ie 'a b'".toList ∧
      translateGrep? "grep -A 3 src -ie 'a b'".toList =
        some "rtk grep 'a b' src -A 3 -i".toList := by
  have hunits : ∀ unit ∈ [["-A".toList, "3".toList], ["-ie".toList, "'a b'".toList]],
      (∀ t ∈ unit, IsFreeWord t) ∧ IsUnit .grep (unit.map Word.ofText) := by
    rw [List.forall_mem_cons, List.forall_mem_singleton]
    exact ⟨⟨by decide +kernel, .valued (by decide) rfl⟩,
      ⟨by decide +kernel, .valued (by decide) rfl⟩⟩
  have hpositionals : ∀ t ∈ ["src".toList],
      IsFreeWord t ∧ IsPositional (Word.ofText t).value := by decide +kernel
  have hprogram : IsFreeWord "grep".toList := by decide +kernel
  have hfront : "grep src -A 3 -ie 'a b'".toList = joinBlank
      ["grep".toList, "src".toList, "-A".toList, "3".toList, "-ie".toList, "'a b'".toList] := rfl
  have hbetween : "grep -A 3 src -ie 'a b'".toList = joinBlank
      ["grep".toList, "-A".toList, "3".toList, "src".toList, "-ie".toList, "'a b'".toList] := rfl
  refine ⟨?_, by decide +kernel⟩
  rw [hfront, hbetween]
  exact translateGrep?_eq_of_interleaving hprogram rfl hunits hpositionals
    Interleaving.nil.unit.unit.positional Interleaving.nil.unit.positional.unit

end CompactShell.Search
