import CompactShell.Proofs.Rule.Fronts
import CompactShell.Proofs.Shell.Cut
import CompactShell.Proofs.Shell.Words
import CompactShell.Search.Find
import CompactShell.Search.Grep
import CompactShell.Search.Head

/-!
# Where the texts of a translated search come from

A translated search is put together from texts of five kinds, and each has a reason to be harmless:
texts of the tool's own, whole words, words behind an option's name, values that are quoted anew,
and what `head` takes for the name of a file. `Emitted` lists them.

One lemma for each translator says that it emits nothing else (`emitted_of_query`,
`emitted_of_criteria`, `emitted_of_head`). What holds of all five kinds holds of every translation:
they are inert if the command is (`Emitted.inert`), and unbroken if it is (`Emitted.unbroken`).
-/

namespace CompactShell.Search

open Rule Shell Text

/-- The text was made from the words of the command. -/
inductive Emitted (command : List Char) : List Char → Prop where
  /-- A text of the tool's own. -/
  | own {t : List Char} : PlainText t → '\n' ∉ t → Emitted command t
  /-- A word as it was typed. -/
  | word {w : Word} : w ∈ words command → Emitted command w.raw
  /-- A word without the name of the option it starts with. -/
  | behind {w : Word} {lead t : List Char} : w ∈ words command → PlainText lead →
      w.raw = lead ++ t → Emitted command t
  /-- The value of an option, quoted anew. -/
  | requoted {w : Word} {lead t : List Char} : w ∈ words command → PlainText lead →
      w.value = lead ++ t → Emitted command (requote t)
  /-- The rest of the command, without a newline at its end. -/
  | rest {lead t newline : List Char} : command = lead ++ (t ++ newline) → PlainText lead →
      (newline = [] ∨ newline = ['\n']) → Emitted command t

theorem Emitted.ofString (command : List Char) {text : String} (h : isOwn text = true) :
    Emitted command text.toList :=
  .own (isOwn_iff.1 h).1 (isOwn_iff.1 h).2

/-! ## Searching file contents -/

/-- The texts that a part of a search becomes. -/
def Item.texts : Item → List (List Char)
  | .pattern word => [word.raw]
  | .positional word => [word.raw]
  | .option texts => texts

/-- Everything that the parts become is emitted. -/
def AllEmitted (command : List Char) (items : List Item) : Prop :=
  ∀ item ∈ items, ∀ t ∈ item.texts, Emitted command t

theorem AllEmitted.append {command : List Char} {a b : List Item} (ha : AllEmitted command a)
    (hb : AllEmitted command b) : AllEmitted command (a ++ b) := by
  intro item hi
  rcases List.mem_append.mp hi with h | h
  · exact ha item h
  · exact hb item h

/-- What the role adds to its value is emitted. -/
def Role.Emits (command : List Char) : Role → Prop
  | .pattern => True
  | .option flag => Emitted command flag

theorem Role.emitted_item {command : List Char} {role : Role} (hr : role.Emits command)
    {value : Word} (hv : Emitted command value.raw) : AllEmitted command [role.item value] := by
  intro item hi t ht
  rw [List.mem_singleton] at hi
  subst hi
  cases role with
  | pattern =>
    obtain rfl : t = value.raw := by simpa [Role.item, Item.texts] using ht
    exact hv
  | option flag =>
    have ht : t = flag ∨ t = value.raw := by simpa [Role.item, Item.texts] using ht
    rcases ht with rfl | rfl
    · exact hr
    · exact hv

/-- The value behind an option's name keeps its quotes or gets its own. -/
theorem emitted_attachedValue {command : List Char} {w : Word} (hw : w ∈ words command)
    {lead : String} (hlead : isOwn lead = true) (hs : startsWith lead w.value = true) :
    Emitted command (attachedValue lead w).raw := by
  have hdrop : ∀ rest : List Char, (lead.toList ++ rest).drop lead.length = rest := fun rest => by
    rw [← String.length_toList, List.drop_left]
  rw [attachedValue]
  split
  · rename_i hraw
    obtain ⟨rest, hrest⟩ := startsWith_iff.1 hraw
    dsimp only
    rw [hrest, hdrop]
    exact .behind hw (plainText_of_isOwn hlead) hrest
  · obtain ⟨rest, hrest⟩ := startsWith_iff.1 hs
    dsimp only
    rw [hrest, hdrop]
    exact .requoted hw (plainText_of_isOwn hlead) hrest

theorem isPlain_of_isAlphanumeric {c : Char} (h : isAlphanumeric c = true) : isPlain c = true :=
  isPlain_of_class (by decide +kernel) h

theorem ne_newline_of_isAlphanumeric {c : Char} (h : isAlphanumeric c = true) : c ≠ '\n' := by
  rintro rfl
  revert h
  decide

theorem isPlain_of_mem_valueLetters {searcher : Searcher} {c : Char}
    (h : c ∈ searcher.valueLetters) : isPlain c = true ∧ c ≠ '\n' := by
  have hall : searcher.valueLetters.all (fun c => isPlain c && c != '\n') = true := by
    cases searcher <;> decide
  have hc := List.all_eq_true.1 hall c h
  rw [Bool.and_eq_true, bne_iff_ne] at hc
  exact hc

/-- The letters of a cluster are plain, up to the one that takes a value and that one included. -/
theorem Cluster.ofLetters?_spec {searcher : Searcher} {letters : List Char} {cluster : Cluster}
    (h : Cluster.ofLetters? searcher.valueLetters letters = some cluster) :
    (∀ c ∈ cluster.flags, isAlphanumeric c = true) ∧
      ∀ c rest, cluster.valued = some (c, rest) →
        c ∈ searcher.valueLetters ∧ ∃ lead, letters = lead ++ rest ∧ PlainText lead := by
  induction letters generalizing cluster with
  | nil =>
    obtain rfl := Option.some.inj h
    exact ⟨by simp, by simp⟩
  | cons c letters ih =>
    rw [Cluster.ofLetters?] at h
    split at h
    · rename_i hc
      have hc : c ∈ searcher.valueLetters := by simpa using hc
      obtain rfl := Option.some.inj h
      refine ⟨by simp, fun d rest hd => ?_⟩
      obtain ⟨rfl, rfl⟩ := Prod.mk.inj (Option.some.inj hd)
      exact ⟨hc, [c], rfl, by simpa [PlainText] using (isPlain_of_mem_valueLetters hc).1⟩
    · split at h
      · rename_i hc
        obtain ⟨tail, htail, rfl⟩ := Option.map_eq_some_iff.1 h
        obtain ⟨hflags, hvalued⟩ := ih htail
        refine ⟨?_, fun d rest hd => ?_⟩
        · intro d hd
          rcases List.mem_cons.mp hd with rfl | hd
          · exact hc
          · exact hflags d hd
        · obtain ⟨hmem, lead, rfl, hlead⟩ := hvalued d rest hd
          refine ⟨hmem, c :: lead, rfl, ?_⟩
          intro e he
          rcases List.mem_cons.mp he with rfl | he
          · exact isPlain_of_isAlphanumeric hc
          · exact hlead e he
      · cases h

/-- What a word says is emitted, and so is what it adds to a value that comes next. -/
def Reading.Emits (command : List Char) : Reading → Prop
  | .items parts => AllEmitted command parts
  | .valueNext parts role => AllEmitted command parts ∧ role.Emits command
  | .endOfOptions => True
  | .untranslatable => True

theorem allEmitted_nil (command : List Char) : AllEmitted command [] :=
  fun _ hi => absurd hi (by simp)

theorem allEmitted_singleton {command t : List Char} {item : Item} (hi : item.texts = [t])
    (h : Emitted command t) : AllEmitted command [item] := by
  intro item' hi' u hu
  obtain rfl := List.mem_singleton.1 hi'
  rw [hi, List.mem_singleton] at hu
  exact hu ▸ h

theorem Cluster.emitted_flagItems {command : List Char} {cluster : Cluster}
    (h : ∀ c ∈ cluster.flags, isAlphanumeric c = true) : AllEmitted command cluster.flagItems := by
  rw [flagItems]
  split
  · exact allEmitted_nil command
  · rename_i kept hkept
    refine allEmitted_singleton rfl (.own ?_ ?_)
    · intro c hc
      rcases List.mem_cons.mp hc with rfl | hc
      · decide
      · exact isPlain_of_isAlphanumeric (h c (List.mem_of_mem_filter hc))
    · intro hn
      rcases List.mem_cons.mp hn with hd | hn
      · exact absurd hd (by decide)
      · exact ne_newline_of_isAlphanumeric (h '\n' (List.mem_of_mem_filter hn)) rfl

theorem shortRole?_emits {command : List Char} {letter : Char} {role : Role}
    (h : shortRole? letter = some role) (hl : isPlain letter = true ∧ letter ≠ '\n') :
    role.Emits command := by
  rw [shortRole?] at h
  split at h
  · cases h
  · split at h
    · obtain rfl := Option.some.inj h
      trivial
    · obtain rfl := Option.some.inj h
      refine .own ?_ ?_
      · intro c hc
        simp only [List.mem_cons, List.not_mem_nil, or_false] at hc
        rcases hc with rfl | rfl
        · decide
        · exact hl.1
      · intro hn
        simp only [List.mem_cons, List.not_mem_nil, or_false] at hn
        rcases hn with hn | hn
        · exact absurd hn (by decide)
        · exact hl.2 hn.symm

/-- **A cluster emits plain flags and a value quoted anew.** -/
theorem Cluster.reading_emits {searcher : Searcher} {command : List Char} {w : Word}
    (hw : w ∈ words command) {dash : Char} {letters : List Char} (hd : isPlain dash = true)
    (hvalue : w.value = dash :: letters) {cluster : Cluster}
    (h : Cluster.ofLetters? searcher.valueLetters letters = some cluster) :
    cluster.reading.Emits command := by
  obtain ⟨hflags, hvalued⟩ := Cluster.ofLetters?_spec h
  have hitems : AllEmitted command cluster.flagItems := Cluster.emitted_flagItems hflags
  rw [reading]
  split
  · exact hitems
  · rename_i letter attached hv
    obtain ⟨hletter, lead, rfl, hlead⟩ := hvalued letter attached hv
    split
    · trivial
    · rename_i role hrole
      have hemits : role.Emits command :=
        shortRole?_emits hrole (isPlain_of_mem_valueLetters hletter)
      split
      · exact ⟨hitems, hemits⟩
      · -- what is cut off the word are the dash and the letters, and none of them is quoted
        have hplain : PlainText (dash :: lead) := by
          intro c hc
          rcases List.mem_cons.mp hc with rfl | hc
          · exact hd
          · exact hlead c hc
        exact hitems.append (Role.emitted_item hemits (.requoted hw hplain hvalue))

/-- The name of a long option is passed on as it was typed, or by the tool's own name. -/
theorem longRole?_emits {command : List Char} {w : Word} (hw : w ∈ words command) {role : Role}
    (h : longRole? w = some role) : role.Emits command := by
  rw [longRole?] at h
  split at h
  · obtain rfl := Option.some.inj h
    trivial
  · split at h
    · obtain rfl := Option.some.inj h
      exact Emitted.ofString command (by decide)
    · split at h
      · obtain rfl := Option.some.inj h
        exact .word hw
      · cases h

/-- **Every word says what can be emitted.** -/
theorem ofWord_emits (searcher : Searcher) {command : List Char} {w : Word}
    (hw : w ∈ words command) : (Reading.ofWord searcher w).Emits command := by
  rw [Reading.ofWord]
  split
  · trivial
  split
  · exact allEmitted_nil command
  split
  · trivial
  split
  · rename_i hinclude
    have hglob : (Role.option "--glob".toList).Emits command :=
      Emitted.ofString command (by decide)
    exact Role.emitted_item hglob (emitted_attachedValue hw (by decide) hinclude)
  split
  · rename_i hregexp
    exact allEmitted_singleton rfl (emitted_attachedValue hw (by decide) hregexp)
  split
  · rename_i role hrole
    exact ⟨allEmitted_nil command, longRole?_emits hw hrole⟩
  split
  · rename_i hshort
    split
    · trivial
    · rename_i cluster hcluster
      cases hv : w.value with
      | nil => rw [hv] at hshort; simp [isShortOption] at hshort
      | cons dash letters =>
        have hdash : dash = '-' := by
          rw [hv] at hshort
          unfold isShortOption at hshort
          split at hshort
          · rename_i heq
            exact (List.cons.inj heq).1
          · exact absurd hshort (by simp)
        rw [hv] at hcluster
        exact Cluster.reading_emits hw (by rw [hdash]; decide) hv hcluster
  split
  · exact allEmitted_singleton rfl (.word hw)
  · exact allEmitted_singleton rfl (.word hw)

/-- Reading all the words of a search adds nothing that is not emitted. -/
theorem emitted_of_readItems? {searcher : Searcher} {command : List Char} {args : List Word}
    {items : List Item} (hargs : ∀ w ∈ args, w ∈ words command)
    (h : readItems? searcher args = some items) : AllEmitted command items := by
  -- an option takes the next word along as its value, so the cases are those of the reader
  fun_induction readItems? searcher args generalizing items with
  | case1 =>
    obtain rfl := Option.some.inj h
    exact allEmitted_nil command
  | case2 word rest said hsaid ih =>
    have hword := hsaid ▸ ofWord_emits searcher (hargs word (List.mem_cons_self ..))
    obtain ⟨more, hmore, rfl⟩ := Option.map_eq_some_iff.1 h
    exact AllEmitted.append hword (ih (fun w hw => hargs w (List.mem_cons_of_mem _ hw)) hmore)
  | case3 => cases h
  | case4 word said role hsaid value rest ih =>
    have hword := hsaid ▸ ofWord_emits searcher (hargs word (List.mem_cons_self ..))
    obtain ⟨more, hmore, rfl⟩ := Option.map_eq_some_iff.1 h
    have hvalue := hargs value (List.mem_cons_of_mem _ (List.mem_cons_self ..))
    have hrest := ih
      (fun w hw => hargs w (List.mem_cons_of_mem _ (List.mem_cons_of_mem _ hw))) hmore
    -- what the word adds by itself, what it adds to the value, and what the rest says
    exact hword.1.append ((Role.emitted_item hword.2 (.word hvalue)).append hrest)
  | case5 word rest =>
    obtain rfl := Option.some.inj h
    intro item hi t ht
    obtain ⟨w, hw, rfl⟩ := List.mem_map.1 hi
    obtain rfl : t = w.raw := by simpa [Item.texts] using ht
    exact .word (hargs w (List.mem_cons_of_mem _ hw))
  | case6 => cases h

/-- The query for a pattern and the paths behind it: there may be one, and the pattern must not read
as a flag. -/
def Query.place? (options : List (List Char)) (pattern : Word) (paths : List Word) :
    Option Query :=
  if startsWith "-" pattern.value then none
  else
    match paths with
    | [] => some ⟨pattern, none, options⟩
    | [path] => some ⟨pattern, some path, options⟩
    | _ => none

theorem Query.place?_spec {options : List (List Char)} {pattern : Word} {paths : List Word}
    {query : Query} (h : place? options pattern paths = some query) :
    query.options = options ∧ query.pattern = pattern ∧ query.path.toList = paths := by
  unfold place? at h
  split at h
  · cases h
  · split at h
    · obtain rfl := Option.some.inj h
      exact ⟨rfl, rfl, rfl⟩
    · obtain rfl := Option.some.inj h
      exact ⟨rfl, rfl, rfl⟩
    · cases h

/-- **The parts of a search in their places.** One pattern, given by an option or standing first,
at most one path, and the options as they come. -/
theorem Query.ofItems?_spec {items : List Item} {query : Query}
    (h : Query.ofItems? items = some query) :
    query.options = optionsOf items ∧
      ((patternsOf items = [] ∧ positionalsOf items = query.pattern :: query.path.toList) ∨
        (patternsOf items = [query.pattern] ∧ positionalsOf items = query.path.toList)) := by
  simp only [Query.ofItems?] at h
  split at h
  · cases h
  · rename_i pattern paths hpat hpos
    obtain ⟨ho, rfl, rfl⟩ := Query.place?_spec h
    exact ⟨ho, Or.inl ⟨hpat, hpos⟩⟩
  · rename_i pattern hpat
    obtain ⟨ho, rfl, hp⟩ := Query.place?_spec h
    exact ⟨ho, Or.inr ⟨hpat, hp.symm⟩⟩
  · cases h

theorem mem_of_mem_patternsOf {items : List Item} {w : Word} (h : w ∈ patternsOf items) :
    Item.pattern w ∈ items := by
  obtain ⟨item, hi, hw⟩ := List.mem_filterMap.1 h
  cases item with
  | pattern v => obtain rfl := Option.some.inj hw; exact hi
  | positional v => cases hw
  | option texts => cases hw

theorem mem_of_mem_positionalsOf {items : List Item} {w : Word} (h : w ∈ positionalsOf items) :
    Item.positional w ∈ items := by
  obtain ⟨item, hi, hw⟩ := List.mem_filterMap.1 h
  cases item with
  | pattern v => cases hw
  | positional v => obtain rfl := Option.some.inj hw; exact hi
  | option texts => cases hw

theorem emitted_of_mem_optionsOf {command : List Char} {items : List Item}
    (h : AllEmitted command items) {t : List Char} (ht : t ∈ optionsOf items) :
    Emitted command t := by
  obtain ⟨item, hi, ht⟩ := List.mem_flatMap.1 ht
  cases item with
  | pattern v => exact absurd ht (by simp)
  | positional v => exact absurd ht (by simp)
  | option texts => exact h _ hi t ht

/-- A query puts in place what its parts emit. -/
theorem Query.emitted_of_ofItems? {command : List Char} {items : List Item} {query : Query}
    (hall : AllEmitted command items) (h : Query.ofItems? items = some query) :
    Emitted command query.pattern.raw ∧ (∀ w ∈ query.path.toList, Emitted command w.raw) ∧
      ∀ t ∈ query.options, Emitted command t := by
  have hpositional : ∀ w ∈ positionalsOf items, Emitted command w.raw := fun w hw =>
    hall _ (mem_of_mem_positionalsOf hw) _ (List.mem_cons_self ..)
  have hpattern : ∀ w ∈ patternsOf items, Emitted command w.raw := fun w hw =>
    hall _ (mem_of_mem_patternsOf hw) _ (List.mem_cons_self ..)
  obtain ⟨hoptions, hparts⟩ := Query.ofItems?_spec h
  refine ⟨?_, ?_, fun t ht => emitted_of_mem_optionsOf hall (hoptions ▸ ht)⟩
  · rcases hparts with ⟨-, hpos⟩ | ⟨hpat, -⟩
    · exact hpositional _ (hpos ▸ List.mem_cons_self ..)
    · exact hpattern _ (hpat ▸ List.mem_cons_self ..)
  · intro w hw
    rcases hparts with ⟨-, hpos⟩ | ⟨-, hpos⟩
    · exact hpositional w (hpos ▸ List.mem_cons_of_mem _ hw)
    · exact hpositional w (hpos ▸ hw)

/-- A command without a word behind the searcher's name needs no test of its own: it has no
pattern. -/
theorem Query.ofWords?_cons (name : Word) (args : List Word) :
    Query.ofWords? (name :: args) = (Searcher.ofWord? name.value).bind fun searcher =>
      (readItems? searcher args).bind Query.ofItems? := by
  rw [ofWords?]
  cases Searcher.ofWord? name.value with
  | none => rfl
  | some searcher =>
    cases args with
    | nil => rfl
    | cons word rest => rfl

/-- What a query is read from. -/
theorem Query.exists_args_of_ofWords? {ws : List Word} {query : Query}
    (h : Query.ofWords? ws = some query) :
    ∃ name args searcher items, ws = name :: args ∧ Searcher.ofWord? name.value = some searcher ∧
      readItems? searcher args = some items ∧ Query.ofItems? items = some query := by
  cases ws with
  | nil => cases h
  | cons name args =>
    rw [ofWords?_cons] at h
    obtain ⟨searcher, hsearcher, h⟩ := Option.bind_eq_some_iff.1 h
    obtain ⟨items, hitems, hquery⟩ := Option.bind_eq_some_iff.1 h
    exact ⟨name, args, searcher, items, rfl, hsearcher, hitems, hquery⟩

/-- A query is made of what the words of its command say. -/
theorem Query.exists_items_of_ofWords? {command : List Char} {query : Query}
    (h : Query.ofWords? (words command) = some query) :
    ∃ items, AllEmitted command items ∧ Query.ofItems? items = some query := by
  obtain ⟨name, args, searcher, items, hwords, -, hitems, hquery⟩ := exists_args_of_ofWords? h
  refine ⟨items, emitted_of_readItems? (fun w hw => ?_) hitems, hquery⟩
  rw [hwords]
  exact List.mem_cons_of_mem _ hw

/-- **What a search of file contents emits.** -/
theorem emitted_of_query {command : List Char} {query : Query}
    (h : Query.ofWords? (words command) = some query) :
    ∃ texts, query.texts = "rtk".toList :: "grep".toList :: texts ∧
      ∀ t ∈ texts, Emitted command t := by
  obtain ⟨items, hall, hquery⟩ := Query.exists_items_of_ofWords? h
  obtain ⟨hpattern, hpath, hoptions⟩ := Query.emitted_of_ofItems? hall hquery
  refine ⟨_, rfl, ?_⟩
  intro t ht
  rcases List.mem_cons.mp ht with rfl | ht
  · exact hpattern
  · rcases List.mem_append.mp ht with ht | ht
    · obtain ⟨w, hw, rfl⟩ := List.mem_map.1 ht
      exact hpath w hw
    · exact hoptions t ht

/-! ## Searching file names -/

/-- The name and the path of a search by name are words of the command. -/
structure Criteria.FromWords (command : List Char) (criteria : Criteria) : Prop where
  name : ∀ w ∈ criteria.name, w ∈ words command
  path : ∀ w ∈ criteria.path, w ∈ words command

theorem Criteria.FromWords.read? {command : List Char} {criteria result : Criteria}
    (h : criteria.FromWords command) {args : List Word} (hargs : ∀ w ∈ args, w ∈ words command)
    (hr : criteria.read? args = some result) : result.FromWords command := by
  fun_induction Criteria.read? criteria args with
  | case1 =>
    obtain rfl := Option.some.inj hr
    exact h
  | case2 =>
    obtain rfl := Option.some.inj hr
    exact h
  | case3 criteria word value rest _ ih =>
    refine ih ⟨?_, h.path⟩
      (fun w hw => hargs w (List.mem_cons_of_mem _ (List.mem_cons_of_mem _ hw))) hr
    intro w hw
    obtain rfl := Option.some.inj hw
    exact hargs value (List.mem_cons_of_mem _ (List.mem_cons_self ..))
  | case4 criteria word value rest _ ih =>
    exact ih ⟨h.name, h.path⟩
      (fun w hw => hargs w (List.mem_cons_of_mem _ (List.mem_cons_of_mem _ hw))) hr
  | case5 criteria word value rest _ ih =>
    exact ih h (fun w hw => hargs w (List.mem_cons_of_mem _ (List.mem_cons_of_mem _ hw))) hr
  | case6 => cases hr
  | case7 criteria word rest _ _ ih =>
    refine ih ⟨h.name, ?_⟩ (fun w hw => hargs w (List.mem_cons_of_mem _ hw)) hr
    intro w hw
    obtain rfl := Option.some.inj hw
    exact hargs word (List.mem_cons_self ..)
  | case8 => cases hr

theorem Criteria.fromWords_of_ofWords? {command : List Char} {criteria : Criteria}
    (h : Criteria.ofWords? (words command) = some criteria) : criteria.FromWords command := by
  cases hwords : words command with
  | nil => rw [hwords] at h; cases h
  | cons program args =>
    rw [hwords, Criteria.ofWords?] at h
    split at h
    · cases h
    · have hempty : Criteria.empty.FromWords command :=
        ⟨by simp [Criteria.empty], by simp [Criteria.empty]⟩
      refine hempty.read? (fun w hw => ?_) h
      rw [hwords]
      exact List.mem_cons_of_mem _ hw

/-- A kind of file is passed on only if it is one of the tool's own. -/
theorem Criteria.emitted_of_mem_kindOption (command : List Char) {criteria : Criteria}
    {t : List Char} (ht : t ∈ criteria.kindOption) : Emitted command t := by
  rw [kindOption] at ht
  split at ht
  · split at ht
    · rename_i kind _ hkind
      obtain ⟨choice, hchoice, hk⟩ := isOneOf_iff.1 hkind
      have hown : isOwn choice = true := by
        simp only [List.mem_cons, List.not_mem_nil, or_false] at hchoice
        rcases hchoice with rfl | rfl <;> decide
      rcases List.mem_cons.mp ht with rfl | ht
      · exact Emitted.ofString command (by decide)
      · obtain rfl := List.mem_singleton.1 ht
        rw [← hk]
        exact Emitted.ofString command hown
    · exact absurd ht (by simp)
  · exact absurd ht (by simp)

/-- **What a search of file names emits.** -/
theorem emitted_of_criteria {command : List Char} {criteria : Criteria}
    (h : Criteria.ofWords? (words command) = some criteria) {texts : List (List Char)}
    (ht : criteria.texts? = some texts) :
    ∃ rest, texts = "rtk".toList :: "find".toList :: rest ∧ ∀ t ∈ rest, Emitted command t := by
  have hfrom := Criteria.fromWords_of_ofWords? h
  obtain ⟨name, hname, rfl⟩ := Option.map_eq_some_iff.1 ht
  refine ⟨_, rfl, ?_⟩
  intro t ht
  rcases List.mem_cons.mp ht with rfl | ht
  · exact .word (hfrom.name name hname)
  · rcases List.mem_append.mp ht with ht | ht
    · obtain ⟨w, hw, rfl⟩ := List.mem_map.1 ht
      exact .word (hfrom.path w (Option.mem_toList.1 hw))
    · exact Criteria.emitted_of_mem_kindOption command ht

/-! ## Reading the start of a file -/

theorem wholeLine?_spec {text line : List Char} (h : wholeLine? text = some line) :
    ∃ newline, text = line ++ newline ∧ (newline = [] ∨ newline = ['\n']) ∧ line ≠ [] ∧
      '\n' ∉ line := by
  simp only [wholeLine?, Option.ite_none_right_eq_some, Option.some.injEq, Bool.and_eq_true,
    Bool.or_eq_true, Bool.not_eq_true', List.isEmpty_eq_false_iff, List.isEmpty_iff,
    beq_iff_eq] at h
  obtain ⟨⟨hne, hrest⟩, rfl⟩ := h
  refine ⟨_, List.takeWhile_append_dropWhile.symm, hrest, hne, ?_⟩
  intro hnewline
  exact absurd (List.mem_takeWhile_imp hnewline) (by decide)

/-- The file's name stands behind white space, up to the end of the line. It is not empty. -/
theorem headTarget?_spec {text target : List Char} (h : headTarget? text = some target) :
    ∃ white newline, text = white ++ (target ++ newline) ∧ (∀ c ∈ white, isSpace c = true) ∧
      (newline = [] ∨ newline = ['\n']) ∧ target ≠ [] ∧ '\n' ∉ target := by
  induction text with
  | nil => cases h
  | cons c rest ih =>
    rw [headTarget?] at h
    split at h
    · rename_i hc
      cases hrest : headTarget? rest with
      | some found =>
        rw [hrest] at h
        obtain rfl := Option.some.inj h
        obtain ⟨white, newline, rfl, hwhite, hnl⟩ := ih hrest
        refine ⟨c :: white, newline, rfl, ?_, hnl⟩
        intro d hd
        rcases List.mem_cons.mp hd with rfl | hd
        · exact hc
        · exact hwhite d hd
      | none =>
        rw [hrest] at h
        obtain ⟨newline, rfl, hnl⟩ := wholeLine?_spec h
        exact ⟨[c], newline, rfl, by simpa using hc, hnl⟩
    · cases h

/-- **What a read of a file's first lines emits.** -/
theorem emitted_of_head {command count rest target : List Char}
    (hc : headCount? command = some (count, rest)) (ht : headTarget? rest = some target) :
    Emitted command target ∧ Emitted command count := by
  obtain ⟨front, hcommand, hfront, hdecimal, -⟩ := headCount?_spec hc
  obtain ⟨white, newline, rfl, hwhite, hnl, -⟩ := headTarget?_spec ht
  have hsplit : command = (front ++ white) ++ (target ++ newline) := by
    rw [hcommand, List.append_assoc]
  refine ⟨.rest hsplit (hfront.plain.append (plainText_of_isSpace hwhite)) hnl, .own ?_ ?_⟩
  · exact fun c hc => isPlain_of_isDecimal (hdecimal c hc)
  · intro hn
    exact absurd (hdecimal _ hn) (by decide)

/-! ## What holds of everything emitted -/

/-- **Inert commands emit inert texts.** -/
theorem Emitted.inert {command t : List Char} (h : Emitted command t) (hc : Inert command) :
    Inert t := by
  have hword : ∀ {w : Word}, w ∈ words command → Inert w.raw := by
    intro w hw
    obtain ⟨before, hat⟩ := exists_standsAt hw
    exact hat.inert hc
  cases h with
  | own hplain _ => exact inert_of_plainText hplain
  | word hw => exact hword hw
  | behind hw hlead hraw => exact Inert.of_plainText_append hlead (hraw ▸ hword hw)
  | requoted _ _ _ => exact inert_requote _
  | rest hcommand hlead hnl =>
    have hrest := Inert.of_plainText_append hlead (hcommand ▸ hc)
    refine Inert.of_append_white ?_ hrest
    rcases hnl with rfl | rfl
    · simp
    · exact fun c hc => by obtain rfl := List.mem_singleton.1 hc; decide

theorem getLast?_ne_backslash {lead : List Char} (h : PlainText lead) :
    lead.getLast? ≠ some '\\' := by
  intro hl
  exact ne_of_isPlain (h _ (List.mem_of_mem_getLast? hl)) (by decide) rfl

/-- **Unbroken commands emit unbroken texts.** -/
theorem Emitted.unbroken {command t : List Char} (h : Emitted command t)
    (hc : Unbroken command) : Unbroken t := by
  have hword : ∀ {w : Word}, w ∈ words command → Unbroken w.raw ∧ Unbroken w.value := by
    intro w hw
    obtain ⟨before, hat⟩ := exists_standsAt hw
    have hraw := hat.unbroken hc
    exact ⟨hraw, hat.value_eq ▸ unbroken_unquoted hraw⟩
  cases h with
  | own _ hn => exact unbroken_of_not_mem hn
  | word hw => exact (hword hw).1
  | behind hw hlead hraw =>
    have := (hword hw).1
    rw [hraw] at this
    exact this.right (getLast?_ne_backslash hlead)
  | requoted hw hlead hvalue =>
    have := (hword hw).2
    rw [hvalue] at this
    exact unbroken_requote (this.right (getLast?_ne_backslash hlead))
  | rest hcommand hlead _ =>
    rw [hcommand] at hc
    exact (hc.right (getLast?_ne_backslash hlead)).left

end CompactShell.Search
