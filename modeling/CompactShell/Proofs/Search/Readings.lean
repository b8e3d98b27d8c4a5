import CompactShell.Proofs.Search.Emitted

/-!
# What a word of a search says

A word behind the name of a searcher ends the options, is an option, or is a positional word, and
its value alone decides which (`ofWord_cases`). What an option says has one of eight shapes,
`OptionReads`, and the statements about searches go through these shapes instead of the reader's
tests: no option makes a positional word (`OptionReads.positionalsOf_eq_nil`), and of all the words
only those behind the end of the options can become positional with a dash in front
(`positionalsOf_readItems?`).
-/

namespace CompactShell.Search

open Rule Shell Text

/-! ## Clusters -/

/-- The letters behind the dash of a cluster. -/
def Cluster.letters (cluster : Cluster) : List Char :=
  cluster.flags ++
    match cluster.valued with
    | none => []
    | some (letter, attached) => letter :: attached

/-- The word is a dash with the letters of the cluster: flags that take no value, and perhaps one
letter that does. -/
structure IsCluster (searcher : Searcher) (word : Word) (cluster : Cluster) : Prop where
  value_eq : word.value = '-' :: cluster.letters
  alphanumeric : ∀ c ∈ cluster.flags, isAlphanumeric c = true
  plain : ∀ c ∈ cluster.flags, searcher.valueLetters.contains c = false
  valued : ∀ letter attached, cluster.valued = some (letter, attached) →
    letter ∈ searcher.valueLetters

theorem Cluster.letters_of_ofLetters? {valueLetters letters : List Char} {cluster : Cluster}
    (h : Cluster.ofLetters? valueLetters letters = some cluster) :
    cluster.letters = letters ∧ ∀ c ∈ cluster.flags, valueLetters.contains c = false := by
  induction letters generalizing cluster with
  | nil =>
    obtain rfl := Option.some.inj h
    exact ⟨rfl, List.forall_mem_nil _⟩
  | cons c letters ih =>
    rw [Cluster.ofLetters?] at h
    split at h
    · obtain rfl := Option.some.inj h
      exact ⟨rfl, List.forall_mem_nil _⟩
    · rename_i hc
      split at h
      · obtain ⟨tail, htail, rfl⟩ := Option.map_eq_some_iff.1 h
        obtain ⟨hletters, hflags⟩ := ih htail
        exact ⟨congrArg (c :: ·) hletters,
          List.forall_mem_cons.2 ⟨Bool.not_eq_true _ ▸ hc, hflags⟩⟩
      · cases h

/-! ## The shapes of an option -/

/-- The value is an option's: it starts with a dash, but it is neither a dash alone nor two. -/
def IsOption (value : List Char) : Prop :=
  startsWith "-" value = true ∧ value ≠ ['-'] ∧ value ≠ "--".toList

/-- The value is that of a positional word: it starts with no dash, or it is a dash alone. -/
def IsPositional (value : List Char) : Prop :=
  startsWith "-" value = false ∨ value = ['-']

instance (value : List Char) : Decidable (IsOption value) :=
  inferInstanceAs (Decidable (_ ∧ _))

instance (value : List Char) : Decidable (IsPositional value) :=
  inferInstanceAs (Decidable (_ ∨ _))

/-- The options that take their value behind an equals sign, and what it is for. -/
def equalsRoles : List (String × Role) :=
  [("--include=", .option "--glob".toList), ("--regexp=", .pattern)]

/-- What an option says. -/
inductive OptionReads (searcher : Searcher) (word : Word) : Reading → Prop where
  /-- It has no place in the compact form. -/
  | untranslatable : OptionReads searcher word .untranslatable
  /-- It asks for what the compact form does anyway. -/
  | redundant : OptionReads searcher word (.items [])
  /-- Its value stands behind an equals sign. -/
  | equals {lead : String} {role : Role} : (lead, role) ∈ equalsRoles →
      startsWith lead word.value = true →
      OptionReads searcher word (.items [role.item (attachedValue lead word)])
  /-- It has a long name, and its value is the next word. -/
  | next {role : Role} : longRole? word = some role →
      OptionReads searcher word (.valueNext [] role)
  /-- A cluster of flags. -/
  | flags {flags : List Char} : IsCluster searcher word ⟨flags, none⟩ →
      OptionReads searcher word (.items (Cluster.flagItems ⟨flags, none⟩))
  /-- A cluster that ends in a letter whose value is the next word. -/
  | flagsNext {flags : List Char} {letter : Char} {role : Role} :
      IsCluster searcher word ⟨flags, some (letter, [])⟩ → shortRole? letter = some role →
      OptionReads searcher word (.valueNext (Cluster.flagItems ⟨flags, some (letter, [])⟩) role)
  /-- A cluster with a value attached to one of its letters. -/
  | flagsAttached {flags attached : List Char} {letter : Char} {role : Role} :
      IsCluster searcher word ⟨flags, some (letter, attached)⟩ → attached ≠ [] →
      shortRole? letter = some role →
      OptionReads searcher word
        (.items (Cluster.flagItems ⟨flags, some (letter, attached)⟩ ++
          [role.item ⟨requote attached, attached⟩]))
  /-- It is passed on as it was typed. -/
  | kept : OptionReads searcher word (.items [.option [word.raw]])

theorem isOption_of_append {lead rest value : List Char} (h : value = lead ++ rest)
    (hlead : IsOption lead) (hlong : 2 < lead.length) : IsOption value := by
  obtain ⟨more, hmore⟩ := startsWith_iff.1 hlead.1
  subst h
  refine ⟨startsWith_iff.2 ⟨more ++ rest, by rw [hmore, List.append_assoc]⟩, ?_, ?_⟩
  · intro heq
    have hlength := congrArg List.length heq
    rw [List.length_append, List.length_singleton] at hlength
    omega
  · intro heq
    have hlength := congrArg List.length heq
    rw [List.length_append] at hlength
    change lead.length + rest.length = 2 at hlength
    omega

theorem isOption_of_isShortOption {value : List Char} (h : isShortOption value = true) :
    IsOption value ∧ value = '-' :: value.tail := by
  unfold isShortOption at h
  split at h
  · rename_i c rest
    refine ⟨⟨rfl, by simp, ?_⟩, rfl⟩
    intro heq
    obtain rfl : c = '-' := (List.cons.inj (List.cons.inj heq).2).1
    exact absurd h (by decide)
  · exact absurd h Bool.false_ne_true

/-- The names of options whose value is the next word are options. -/
theorem isOption_of_longRole? {word : Word} {role : Role} (h : longRole? word = some role) :
    IsOption word.value := by
  rw [longRole?] at h
  split at h
  · rename_i hvalue
    rw [hvalue]
    decide
  · split at h
    · rename_i hvalue
      rw [hvalue]
      decide
    · split at h
      · rename_i hone
        obtain ⟨name, hname, hvalue⟩ := isOneOf_iff.1 hone
        rw [← hvalue]
        have hall : ∀ name ∈ ["--after-context", "--before-context", "--context", "--max-count",
            "--glob"], IsOption name.toList := by decide
        exact hall name hname
      · cases h

/-- A word that names a file of patterns or a replacement is an option. -/
theorem isOption_of_takeWhile {value : List Char}
    (h : isOneOf ["--file", "--replace"] (value.takeWhile (· != '=')) = true) :
    IsOption value := by
  obtain ⟨name, hname, hvalue⟩ := isOneOf_iff.1 h
  have hall : ∀ name ∈ ["--file", "--replace"],
      IsOption name.toList ∧ 2 < name.toList.length := by decide
  obtain ⟨hoption, hlong⟩ := hall name hname
  have hsplit : value = name.toList ++ value.dropWhile (· != '=') := by
    rw [hvalue, List.takeWhile_append_dropWhile]
  exact isOption_of_append hsplit hoption hlong

/-- What a cluster says is one of the shapes. -/
theorem Cluster.optionReads {searcher : Searcher} {word : Word} {cluster : Cluster}
    (h : IsCluster searcher word cluster) : OptionReads searcher word cluster.reading := by
  obtain ⟨flags, valued⟩ := cluster
  rw [reading]
  split
  · rename_i hvalued
    obtain rfl : valued = none := hvalued
    exact .flags h
  · rename_i letter attached hvalued
    obtain rfl : valued = some (letter, attached) := hvalued
    split
    · exact .untranslatable
    · rename_i role hrole
      split
      · rename_i hempty
        obtain rfl := List.isEmpty_iff.1 hempty
        exact .flagsNext h hrole
      · rename_i hne
        exact .flagsAttached h (fun hnil => hne (List.isEmpty_iff.2 hnil)) hrole

/-- **What a word says.** It ends the options, it is an option, or it is positional. -/
theorem ofWord_cases (searcher : Searcher) (word : Word) :
    (word.value = "--".toList ∧ Reading.ofWord searcher word = .endOfOptions) ∨
      (IsOption word.value ∧ OptionReads searcher word (Reading.ofWord searcher word)) ∨
      (IsPositional word.value ∧ Reading.ofWord searcher word = .items [.positional word]) := by
  rw [Reading.ofWord]
  split
  · rename_i hend
    exact .inl ⟨hend, rfl⟩
  rename_i hend
  split
  · rename_i hrecursion
    rw [Bool.and_eq_true] at hrecursion
    obtain ⟨name, hname, hvalue⟩ := isOneOf_iff.1 hrecursion.2
    have hall : ∀ name ∈ ["-r", "-R", "--recursive"], IsOption name.toList := by decide
    exact .inr (.inl ⟨hvalue ▸ hall name hname, .redundant⟩)
  split
  · rename_i hfile
    exact .inr (.inl ⟨isOption_of_takeWhile hfile, .untranslatable⟩)
  split
  · rename_i hinclude
    obtain ⟨rest, hrest⟩ := startsWith_iff.1 hinclude
    exact .inr (.inl ⟨isOption_of_append hrest (by decide) (by decide),
      .equals (List.mem_cons_self ..) hinclude⟩)
  split
  · rename_i hregexp
    obtain ⟨rest, hrest⟩ := startsWith_iff.1 hregexp
    exact .inr (.inl ⟨isOption_of_append hrest (by decide) (by decide),
      .equals (List.mem_cons_of_mem _ (List.mem_cons_self ..)) hregexp⟩)
  split
  · rename_i role hrole
    exact .inr (.inl ⟨isOption_of_longRole? hrole, .next hrole⟩)
  split
  · rename_i hshort
    obtain ⟨hoption, hvalue⟩ := isOption_of_isShortOption hshort
    refine .inr (.inl ⟨hoption, ?_⟩)
    split
    · exact .untranslatable
    · rename_i cluster hcluster
      obtain ⟨hletters, hplain⟩ := Cluster.letters_of_ofLetters? hcluster
      obtain ⟨halphanumeric, hvalued⟩ := Cluster.ofLetters?_spec hcluster
      refine Cluster.optionReads ⟨by rw [hletters, ← hvalue], halphanumeric, hplain, ?_⟩
      exact fun letter attached h => (hvalued letter attached h).1
  split
  · rename_i hdash
    rw [Bool.and_eq_true, bne_iff_ne] at hdash
    exact .inr (.inl ⟨⟨hdash.1, hdash.2, hend⟩, .kept⟩)
  · rename_i hdash
    refine .inr (.inr ⟨?_, rfl⟩)
    rw [Bool.and_eq_true, bne_iff_ne, not_and_or, not_not, Bool.not_eq_true] at hdash
    exact hdash

theorem not_isPositional_of_isOption {value : List Char} (h : IsOption value) :
    ¬ IsPositional value := by
  rintro (hno | halone)
  · exact absurd (hno.symm.trans h.1) Bool.false_ne_true
  · exact h.2.1 halone

/-- A positional word is read as what it is. -/
theorem ofWord_of_isPositional (searcher : Searcher) {word : Word}
    (h : IsPositional word.value) : Reading.ofWord searcher word = .items [.positional word] := by
  rcases ofWord_cases searcher word with ⟨hend, -⟩ | ⟨hoption, -⟩ | ⟨-, hreading⟩
  · rw [hend] at h
    exact absurd h (by decide)
  · exact absurd h (not_isPositional_of_isOption hoption)
  · exact hreading

theorem optionReads_of_isOption (searcher : Searcher) {word : Word} (h : IsOption word.value) :
    OptionReads searcher word (Reading.ofWord searcher word) := by
  rcases ofWord_cases searcher word with ⟨hend, -⟩ | ⟨-, hreads⟩ | ⟨hpositional, -⟩
  · exact absurd hend h.2.2
  · exact hreads
  · exact absurd hpositional (not_isPositional_of_isOption h)

/-- A word that is complete by itself is an option, or positional. -/
theorem ofWord_items_cases {searcher : Searcher} {word : Word} {items : List Item}
    (h : Reading.ofWord searcher word = .items items) :
    OptionReads searcher word (.items items) ∨
      IsPositional word.value ∧ items = [.positional word] := by
  rcases ofWord_cases searcher word with ⟨-, hend⟩ | ⟨-, hreads⟩ | ⟨hpositional, hreading⟩
  · rw [h] at hend
    cases hend
  · exact .inl (h ▸ hreads)
  · rw [h] at hreading
    cases hreading
    exact .inr ⟨hpositional, rfl⟩

/-- Only an option takes the next word. -/
theorem optionReads_of_valueNext {searcher : Searcher} {word : Word} {items : List Item}
    {role : Role} (h : Reading.ofWord searcher word = .valueNext items role) :
    OptionReads searcher word (.valueNext items role) := by
  rcases ofWord_cases searcher word with ⟨-, hend⟩ | ⟨-, hreads⟩ | ⟨-, hreading⟩
  · rw [h] at hend
    cases hend
  · exact h ▸ hreads
  · rw [h] at hreading
    cases hreading

/-! ## What options make -/

theorem Cluster.flagItems_cases (cluster : Cluster) :
    cluster.flagItems = [] ∨ ∃ kept, kept ≠ [] ∧ (∀ c ∈ kept, c ∈ cluster.flags) ∧
      cluster.flagItems = [.option ['-' :: kept]] := by
  rw [flagItems]
  split
  · exact .inl rfl
  · rename_i hne
    exact .inr ⟨_, hne, fun c hc => List.mem_of_mem_filter hc, rfl⟩

@[simp] theorem positionalsOf_append (items others : List Item) :
    positionalsOf (items ++ others) = positionalsOf items ++ positionalsOf others :=
  List.filterMap_append

@[simp] theorem patternsOf_append (items others : List Item) :
    patternsOf (items ++ others) = patternsOf items ++ patternsOf others :=
  List.filterMap_append

@[simp] theorem optionsOf_append (items others : List Item) :
    optionsOf (items ++ others) = optionsOf items ++ optionsOf others :=
  List.flatMap_append

theorem Cluster.positionalsOf_flagItems (cluster : Cluster) :
    positionalsOf cluster.flagItems = [] := by
  rcases cluster.flagItems_cases with h | ⟨kept, -, -, h⟩
  · rw [h]
    rfl
  · rw [h]
    rfl

theorem Role.positionalsOf_item (role : Role) (value : Word) :
    positionalsOf [role.item value] = [] := by
  cases role with
  | pattern => rfl
  | option flag => rfl

/-- The parts that a reading makes of its word alone. -/
def Reading.made : Reading → List Item
  | .items made => made
  | .valueNext made _ => made
  | .endOfOptions => []
  | .untranslatable => []

/-- No option makes a positional word. -/
theorem OptionReads.positionalsOf_eq_nil {searcher : Searcher} {word : Word} {reading : Reading}
    (h : OptionReads searcher word reading) : positionalsOf reading.made = [] := by
  cases h with
  | untranslatable => rfl
  | redundant => rfl
  | equals hrole hvalue => exact Role.positionalsOf_item _ _
  | next hrole => rfl
  | flags hcluster => exact Cluster.positionalsOf_flagItems _
  | flagsNext hcluster hrole => exact Cluster.positionalsOf_flagItems _
  | flagsAttached hcluster hne hrole =>
    rw [Reading.made, positionalsOf_append, Cluster.positionalsOf_flagItems,
      Role.positionalsOf_item]
    rfl
  | kept => rfl

/-! ## What becomes positional -/

/-- The words behind the two dashes that end the options. -/
def behindEnd (searcher : Searcher) : List Word → List Word
  | [] => []
  | word :: rest =>
    match Reading.ofWord searcher word with
    | .items _ => behindEnd searcher rest
    | .valueNext _ _ =>
      match rest with
      | [] => []
      | _ :: rest => behindEnd searcher rest
    | .endOfOptions => rest
    | .untranslatable => []

/-- **Where positional words come from.** They are words that no dash starts, or a dash alone, and
all the words behind the end of the options. -/
theorem positionalsOf_readItems? {searcher : Searcher} {args : List Word} {items : List Item}
    (h : readItems? searcher args = some items) :
    ∃ front, positionalsOf items = front ++ behindEnd searcher args ∧
      ∀ w ∈ front, IsPositional w.value := by
  fun_induction readItems? searcher args generalizing items with
  | case1 =>
    cases h
    exact ⟨[], rfl, List.forall_mem_nil _⟩
  | case2 word rest said hsaid ih =>
    obtain ⟨more, hmore, rfl⟩ := Option.map_eq_some_iff.1 h
    obtain ⟨front, hfront, hpositional⟩ := ih hmore
    have hbehind : behindEnd searcher (word :: rest) = behindEnd searcher rest := by
      rw [behindEnd.eq_def]
      simp only [hsaid]
    rw [hbehind, positionalsOf_append, hfront]
    rcases ofWord_items_cases hsaid with hreads | ⟨hword, rfl⟩
    · have hnone := hreads.positionalsOf_eq_nil
      rw [Reading.made] at hnone
      exact ⟨front, by rw [hnone, List.nil_append], hpositional⟩
    · exact ⟨word :: front, rfl, List.forall_mem_cons.2 ⟨hword, hpositional⟩⟩
  | case3 => cases h
  | case4 word said role hsaid value rest ih =>
    obtain ⟨more, hmore, rfl⟩ := Option.map_eq_some_iff.1 h
    obtain ⟨front, hfront, hpositional⟩ := ih hmore
    have hbehind : behindEnd searcher (word :: value :: rest) = behindEnd searcher rest := by
      rw [behindEnd, hsaid]
    have hnone := (optionReads_of_valueNext hsaid).positionalsOf_eq_nil
    rw [Reading.made] at hnone
    refine ⟨front, ?_, hpositional⟩
    rw [hbehind, ← hfront, ← List.singleton_append, positionalsOf_append, positionalsOf_append,
      hnone, Role.positionalsOf_item]
    rfl
  | case5 word rest hsaid =>
    cases h
    have hbehind : behindEnd searcher (word :: rest) = rest := by
      rw [behindEnd.eq_def]
      simp only [hsaid]
    refine ⟨[], ?_, List.forall_mem_nil _⟩
    rw [hbehind, List.nil_append]
    clear hsaid hbehind
    induction rest with
    | nil => rfl
    | cons w rest ih => exact congrArg (w :: ·) ih
  | case6 => cases h

end CompactShell.Search
