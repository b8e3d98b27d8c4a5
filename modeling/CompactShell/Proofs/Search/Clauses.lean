import CompactShell.Proofs.Search.Emitted
import CompactShell.Proofs.Shell.Single

/-!
# The clauses of a search of file names

The words behind `find` are clauses: an option that asks for a name, for a kind of file or for a
depth, each with its value, and words without a dash. A last word may ask for a name without giving
one. `Splits` says so without reading the words one by one, and the reader's answer follows from the
split (`Splits.read?_eq`): there is one exactly if there is no second path, and then it holds the
last name and the last kind. What is translated, and into which words, is
`translateFind?_iff_splits`.

A search that asks for several names is read like one that asks for the last of them, although
`find` wants all of them to match. `overruled_clauses_dropped` says which clauses are passed over in
that way, and that a search has none exactly if it asks for one name and at most one kind.
-/

namespace CompactShell.Search

open Rule Shell Text

/-! ## What words ask for -/

/-- The word asks for the criterion, or is what the criterion is taken from. -/
def Criterion.Fits : Criterion → Word → Prop
  | .name, w => isOneOf ["-name", "-iname"] w.value = true
  | .kind, w => isOneOf ["-type"] w.value = true
  | .depth, w => isOneOf ["-maxdepth", "-mindepth"] w.value = true
  | .path, w => startsWith "-" w.value = false
  | .unknown, _ => False

instance (criterion : Criterion) (w : Word) : Decidable (criterion.Fits w) :=
  match criterion with
  | .name => inferInstanceAs (Decidable (_ = true))
  | .kind => inferInstanceAs (Decidable (_ = true))
  | .depth => inferInstanceAs (Decidable (_ = true))
  | .path => inferInstanceAs (Decidable (_ = false))
  | .unknown => inferInstanceAs (Decidable False)

theorem Criterion.fits_ofWord {w : Word} (h : ofWord w ≠ .unknown) : (ofWord w).Fits w := by
  revert h
  rw [ofWord]
  split
  · rename_i hname
    exact fun _ => hname
  split
  · rename_i hkind
    exact fun _ => hkind
  split
  · rename_i hdepth
    exact fun _ => hdepth
  split
  · exact fun hunknown => absurd rfl hunknown
  · rename_i hdash
    exact fun _ => eq_false_of_ne_true hdash

/-- **A word asks for one criterion.** -/
theorem Criterion.Fits.ofWord_eq {criterion : Criterion} {w : Word} (h : criterion.Fits w) :
    ofWord w = criterion := by
  cases criterion with
  | name => exact if_pos h
  | kind =>
    obtain ⟨choice, hchoice, hvalue⟩ := isOneOf_iff.1 h
    obtain rfl := List.mem_singleton.1 hchoice
    rw [ofWord, ← hvalue]
    rfl
  | depth =>
    obtain ⟨choice, hchoice, hvalue⟩ := isOneOf_iff.1 h
    rw [List.mem_pair] at hchoice
    rw [ofWord, ← hvalue]
    rcases hchoice with rfl | rfl
    · rfl
    · rfl
  | path =>
    have hno : ∀ choices : List String, (choices.all fun choice => startsWith "-" choice.toList) →
        ¬ isOneOf choices w.value = true := by
      intro choices hall hone
      obtain ⟨choice, hchoice, hvalue⟩ := isOneOf_iff.1 hone
      have hdash := List.all_eq_true.1 hall choice hchoice
      rw [hvalue, h] at hdash
      cases hdash
    have hdash : ¬ startsWith "-" w.value = true := by
      rw [h]
      exact Bool.false_ne_true
    rw [ofWord, if_neg (hno _ (by decide)), if_neg (hno _ (by decide)), if_neg (hno _ (by decide)),
      if_neg hdash]
  | unknown => exact h.elim

/-! ## Clauses -/

/-- A part of a search of file names. -/
inductive Clause where
  | name (option value : Word)
  | kind (option value : Word)
  | depth (option value : Word)
  | path (word : Word)
  deriving DecidableEq, Repr

/-- The words of the clause. -/
def Clause.args : Clause → List Word
  | name option value => [option, value]
  | kind option value => [option, value]
  | depth option value => [option, value]
  | path word => [word]

/-- The word that the clause starts with. -/
def Clause.head : Clause → Word
  | name option _ => option
  | kind option _ => option
  | depth option _ => option
  | path word => word

def Clause.criterion : Clause → Criterion
  | name _ _ => .name
  | kind _ _ => .kind
  | depth _ _ => .depth
  | path _ => .path

/-- The first word of the clause asks for what the clause gives. Its value can be any word. -/
def Clause.IsProper (clause : Clause) : Prop :=
  clause.criterion.Fits clause.head

instance (clause : Clause) : Decidable clause.IsProper :=
  inferInstanceAs (Decidable (clause.criterion.Fits clause.head))

/-- The word that the clause gives for its criterion. -/
def Clause.value : Clause → Word
  | name _ value => value
  | kind _ value => value
  | depth _ value => value
  | path word => word

/-- The words that the clauses give for the criterion, in order. -/
def valuesOf (criterion : Criterion) (clauses : List Clause) : List Word :=
  (clauses.filter (·.criterion = criterion)).map Clause.value

theorem valuesOf_cons (criterion : Criterion) (clause : Clause) (later : List Clause) :
    valuesOf criterion (clause :: later) =
      if clause.criterion = criterion then clause.value :: valuesOf criterion later
      else valuesOf criterion later := by
  rw [valuesOf, List.filter_cons]
  by_cases h : clause.criterion = criterion
  · rw [if_pos (decide_eq_true h), if_pos h]
    rfl
  · rw [if_neg (by simpa using h), if_neg h]
    rfl

/-- The names that the clauses ask for, in order. -/
def namesOf (clauses : List Clause) : List Word :=
  valuesOf .name clauses

def kindsOf (clauses : List Clause) : List Word :=
  valuesOf .kind clauses

def pathsOf (clauses : List Clause) : List Word :=
  valuesOf .path clauses

/-- The words are those of the clauses, and perhaps a last one that asks for a name without giving
one. -/
structure Splits (args : List Word) (clauses : List Clause) (bare : Option Word) : Prop where
  args_eq : args = clauses.flatMap Clause.args ++ bare.toList
  proper : ∀ clause ∈ clauses, clause.IsProper
  asksName : ∀ option ∈ bare, Criterion.name.Fits option

instance (args : List Word) (clauses : List Clause) (bare : Option Word) :
    Decidable (Splits args clauses bare) :=
  decidable_of_iff (args = clauses.flatMap Clause.args ++ bare.toList ∧
      (∀ clause ∈ clauses, clause.IsProper) ∧ ∀ option ∈ bare.toList, Criterion.name.Fits option)
    ⟨fun h => ⟨h.1, h.2.1, fun option hoption => h.2.2 option (Option.mem_toList.2 hoption)⟩,
      fun h => ⟨h.args_eq, h.proper, fun option hoption =>
        h.asksName option (Option.mem_toList.1 hoption)⟩⟩

theorem splits_nil : Splits [] [] none :=
  ⟨rfl, List.forall_mem_nil _, fun _ h => (Option.not_mem_none _ h).elim⟩

theorem Splits.cons {args : List Word} {clauses : List Clause} {bare : Option Word}
    (h : Splits args clauses bare) {clause : Clause} (hclause : clause.IsProper) :
    Splits (clause.args ++ args) (clause :: clauses) bare :=
  ⟨by rw [h.args_eq, List.flatMap_cons, List.append_assoc],
    List.forall_mem_cons.2 ⟨hclause, h.proper⟩, h.asksName⟩

/-- What is behind the first clause is split by the others. -/
theorem Splits.of_cons {args : List Word} {clause : Clause} {clauses : List Clause}
    {bare : Option Word} (h : Splits args (clause :: clauses) bare) :
    clause.IsProper ∧ ∃ rest, args = clause.args ++ rest ∧ Splits rest clauses bare := by
  obtain ⟨rfl, hproper, hbare⟩ := h
  rw [List.forall_mem_cons] at hproper
  exact ⟨hproper.1, _, by rw [List.flatMap_cons, List.append_assoc], rfl, hproper.2, hbare⟩

theorem Clause.args_eq_cons (clause : Clause) : ∃ value, clause.args = clause.head :: value := by
  cases clause with
  | name option value => exact ⟨[value], rfl⟩
  | kind option value => exact ⟨[value], rfl⟩
  | depth option value => exact ⟨[value], rfl⟩
  | path word => exact ⟨[], rfl⟩

/-- The first word of a clause says which words belong to it. -/
theorem Clause.eq_of_append_eq {clause other : Clause} (hclause : clause.IsProper)
    (hother : other.IsProper) {rest more : List Word}
    (h : clause.args ++ rest = other.args ++ more) : clause = other ∧ rest = more := by
  obtain ⟨value, hvalue⟩ := clause.args_eq_cons
  obtain ⟨otherValue, hotherValue⟩ := other.args_eq_cons
  have hheads := h
  rw [hvalue, hotherValue, List.cons_append, List.cons_append, List.cons.injEq] at hheads
  have hcriterion : clause.criterion = other.criterion := by
    rw [← hclause.ofWord_eq, hheads.1]
    exact hother.ofWord_eq
  cases clause with
  | name option value =>
    cases other with
    | name => simpa [args, and_assoc] using h
    | kind | depth | path => cases hcriterion
  | kind option value =>
    cases other with
    | kind => simpa [args, and_assoc] using h
    | name | depth | path => cases hcriterion
  | depth option value =>
    cases other with
    | depth => simpa [args, and_assoc] using h
    | name | kind | path => cases hcriterion
  | path word =>
    cases other with
    | path => simpa [args] using h
    | name | kind | depth => cases hcriterion

/-- A last word that asks for a name is no clause. -/
theorem Splits.eq_nil {clauses : List Clause} {bare : Option Word}
    (hbare : ∀ option ∈ bare, Criterion.name.Fits option) {other : Option Word}
    (h : Splits bare.toList clauses other) : clauses = [] := by
  cases clauses with
  | nil => rfl
  | cons clause clauses =>
    obtain ⟨hproper, rest, hargs, -⟩ := h.of_cons
    cases bare with
    | none =>
      obtain ⟨value, hvalue⟩ := clause.args_eq_cons
      rw [hvalue] at hargs
      cases hargs
    | some option =>
      have hname := (hbare option rfl).ofWord_eq
      cases clause with
      | name | kind | depth =>
        -- these have a second word
        cases hargs
      | path word =>
        obtain rfl : option = word := (List.cons.inj hargs).1
        cases hname.symm.trans hproper.ofWord_eq

/-- **The words of a search split in one way only.** -/
theorem Splits.unique {args : List Word} {clauses others : List Clause} {bare other : Option Word}
    (h : Splits args clauses bare) (hother : Splits args others other) :
    clauses = others ∧ bare = other := by
  induction clauses generalizing args others with
  | nil =>
    have hargs : args = bare.toList := h.args_eq
    subst hargs
    obtain rfl := Splits.eq_nil h.asksName hother
    have hbare : bare.toList = other.toList := hother.args_eq
    exact ⟨rfl, Option.ext fun option => by rw [← Option.mem_toList, hbare, Option.mem_toList]⟩
  | cons clause clauses ih =>
    cases others with
    | nil =>
      have hargs : args = other.toList := hother.args_eq
      subst hargs
      cases Splits.eq_nil hother.asksName h
    | cons second others =>
      obtain ⟨hproper, rest, rfl, hrest⟩ := h.of_cons
      obtain ⟨hsecond, more, hargs, hmore⟩ := hother.of_cons
      obtain ⟨rfl, rfl⟩ := Clause.eq_of_append_eq hproper hsecond hargs
      obtain ⟨rfl, rfl⟩ := ih hrest hmore
      exact ⟨rfl, rfl⟩

/-! ## Reading clauses -/

/-- The criteria with the one that a clause adds. -/
def Criteria.add (criteria : Criteria) : Clause → Criteria
  | .name _ value => { criteria with name := some value }
  | .kind _ value => { criteria with kind := some value.value }
  | .depth _ _ => criteria
  | .path word => { criteria with path := some word }

/-- **What a split is read as.** Each clause adds its criterion, and there is no place for a second
path. -/
theorem Splits.read?_eq {args : List Word} {clauses : List Clause} {bare : Option Word}
    (h : Splits args clauses bare) (criteria : Criteria) :
    criteria.read? args =
      if (criteria.path.toList ++ pathsOf clauses).length ≤ 1 then
        some (clauses.foldl Criteria.add criteria)
      else none := by
  induction clauses generalizing args criteria with
  | nil =>
    obtain ⟨rfl, -, hbare⟩ := h
    have hlength : criteria.path.toList.length ≤ 1 := Option.length_toList_le
    have hpaths : pathsOf [] = [] := rfl
    rw [hpaths, List.append_nil, if_pos hlength]
    cases bare with
    | none => rfl
    | some option =>
      have hname := (hbare option rfl).ofWord_eq
      rw [List.flatMap_nil, List.nil_append, Option.toList_some, Criteria.read?.eq_def]
      simp only [hname, List.foldl_nil]
  | cons clause clauses ih =>
    obtain ⟨hproper, rest, rfl, hrest⟩ := h.of_cons
    cases clause with
    | name option value =>
      have hword : Criterion.ofWord option = .name := Criterion.Fits.ofWord_eq hproper
      rw [Clause.args, List.cons_append, List.singleton_append, Criteria.read?.eq_def]
      simp only [hword]
      exact ih hrest _
    | kind option value =>
      have hword : Criterion.ofWord option = .kind := Criterion.Fits.ofWord_eq hproper
      rw [Clause.args, List.cons_append, List.singleton_append, Criteria.read?.eq_def]
      simp only [hword]
      exact ih hrest _
    | depth option value =>
      have hword : Criterion.ofWord option = .depth := Criterion.Fits.ofWord_eq hproper
      rw [Clause.args, List.cons_append, List.singleton_append, Criteria.read?.eq_def]
      simp only [hword]
      exact ih hrest _
    | path word =>
      have hword : Criterion.ofWord word = .path := Criterion.Fits.ofWord_eq hproper
      rw [Clause.args, List.singleton_append, Criteria.read?.eq_def]
      simp only [hword]
      have hpaths : pathsOf (.path word :: clauses) = word :: pathsOf clauses := rfl
      rw [hpaths]
      cases hpath : criteria.path with
      | none =>
        rw [Option.isSome_none, if_neg Bool.false_ne_true, ih hrest]
        rfl
      | some first =>
        have hlength : ¬ (first :: word :: pathsOf clauses).length ≤ 1 := by
          rw [List.length_cons, List.length_cons]
          omega
        rw [Option.isSome_some, if_pos rfl, Option.toList_some, List.singleton_append,
          if_neg hlength]

theorem exists_splits_of_read? {criteria result : Criteria} {args : List Word}
    (h : criteria.read? args = some result) : ∃ clauses bare, Splits args clauses bare := by
  have hfits : ∀ {word criterion}, Criterion.ofWord word = criterion → criterion ≠ .unknown →
      criterion.Fits word := by
    rintro word criterion rfl hne
    exact Criterion.fits_ofWord hne
  fun_induction Criteria.read? criteria args with
  | case1 => exact ⟨[], none, splits_nil⟩
  | case2 criteria word hword =>
    refine ⟨[], some word, rfl, List.forall_mem_nil _, ?_⟩
    intro option hoption
    obtain rfl := Option.some.inj hoption
    exact hfits hword Criterion.noConfusion
  | case3 criteria word value rest hword ih =>
    obtain ⟨clauses, bare, hrest⟩ := ih h
    have hproper : (Clause.name word value).IsProper := hfits hword Criterion.noConfusion
    exact ⟨_, bare, hrest.cons hproper⟩
  | case4 criteria word value rest hword ih =>
    obtain ⟨clauses, bare, hrest⟩ := ih h
    have hproper : (Clause.kind word value).IsProper := hfits hword Criterion.noConfusion
    exact ⟨_, bare, hrest.cons hproper⟩
  | case5 criteria word value rest hword ih =>
    obtain ⟨clauses, bare, hrest⟩ := ih h
    have hproper : (Clause.depth word value).IsProper := hfits hword Criterion.noConfusion
    exact ⟨_, bare, hrest.cons hproper⟩
  | case6 => cases h
  | case7 criteria word rest hword _ ih =>
    obtain ⟨clauses, bare, hrest⟩ := ih h
    have hproper : (Clause.path word).IsProper := hfits hword Criterion.noConfusion
    exact ⟨_, bare, hrest.cons hproper⟩
  | case8 => cases h

/-! ## What clauses ask for -/

/-- The criteria that clauses ask for. Of several names, or several kinds, the last one counts. -/
def Criteria.ofClauses (clauses : List Clause) : Criteria :=
  ⟨(namesOf clauses).getLast?, (pathsOf clauses).getLast?,
    (kindsOf clauses).getLast?.map Word.value⟩

theorem getLast?_cons_or {α : Type} (x : α) (xs : List α) (before : Option α) :
    (x :: xs).getLast?.or before = xs.getLast?.or (some x) := by
  rw [List.getLast?_cons]
  cases xs.getLast? with
  | none => rfl
  | some y => rfl

theorem Criteria.foldl_add (clauses : List Clause) (criteria : Criteria) :
    clauses.foldl add criteria =
      ⟨(namesOf clauses).getLast?.or criteria.name, (pathsOf clauses).getLast?.or criteria.path,
        ((kindsOf clauses).getLast?.map Word.value).or criteria.kind⟩ := by
  induction clauses generalizing criteria with
  | nil => rfl
  | cons clause clauses ih =>
    rw [List.foldl_cons, ih]
    cases clause with
    | name option value =>
      have hnames : namesOf (.name option value :: clauses) = value :: namesOf clauses := rfl
      rw [hnames, getLast?_cons_or]
      rfl
    | kind option value =>
      have hkinds : kindsOf (.kind option value :: clauses) = value :: kindsOf clauses := rfl
      rw [hkinds, ← List.getLast?_map, ← List.getLast?_map, List.map_cons, getLast?_cons_or]
      rfl
    | depth option value => rfl
    | path word =>
      have hpaths : pathsOf (.path word :: clauses) = word :: pathsOf clauses := rfl
      rw [hpaths, getLast?_cons_or]
      rfl

/-- **What the words of a search are read as**, given their split. -/
theorem Splits.ofWords?_eq {args : List Word} {clauses : List Clause} {bare : Option Word}
    (h : Splits args clauses bare) {program : Word} (hprogram : program.value = "find".toList)
    (hactions : ∀ w ∈ args, isOneOf Criteria.actions w.value = false) :
    Criteria.ofWords? (program :: args) =
      if (pathsOf clauses).length ≤ 1 then some (Criteria.ofClauses clauses) else none := by
  have hempty : Criteria.empty.path.toList ++ pathsOf clauses = pathsOf clauses := rfl
  have hread : clauses.foldl Criteria.add Criteria.empty = Criteria.ofClauses clauses := by
    rw [Criteria.foldl_add, Criteria.ofClauses, Criteria.empty, Option.or_none, Option.or_none,
      Option.or_none]
  have hno : ¬ (program.value != "find".toList ||
      args.any (isOneOf Criteria.actions ·.value)) = true := by
    simp only [hprogram, bne_self_eq_false, Bool.false_or, List.any_eq_true, not_exists, not_and,
      Bool.not_eq_true]
    exact hactions
  rw [Criteria.ofWords?, if_neg hno, h.read?_eq, hempty, hread]

/-- A search that is read runs `find`, has no action, and its words can be split. -/
theorem Criteria.exists_splits {ws : List Word} {criteria : Criteria}
    (h : Criteria.ofWords? ws = some criteria) :
    ∃ program args clauses bare, ws = program :: args ∧ program.value = "find".toList ∧
      (∀ w ∈ args, isOneOf actions w.value = false) ∧ Splits args clauses bare ∧
      (pathsOf clauses).length ≤ 1 ∧ criteria = ofClauses clauses := by
  cases ws with
  | nil => cases h
  | cons program args =>
    have hread := h
    rw [Criteria.ofWords?, Option.ite_none_left_eq_some] at hread
    simp only [Bool.or_eq_true, bne_iff_ne, List.any_eq_true, not_or, not_not, not_exists,
      not_and, Bool.not_eq_true] at hread
    obtain ⟨⟨hprogram, hactions⟩, hargs⟩ := hread
    obtain ⟨clauses, bare, hsplits⟩ := exists_splits_of_read? hargs
    rw [hsplits.ofWords?_eq hprogram hactions, Option.ite_none_right_eq_some,
      Option.some.injEq] at h
    exact ⟨program, args, clauses, bare, rfl, hprogram, hactions, hsplits, h.1, h.2.symm⟩

/-! ## Which searches are translated, and into which words -/

/-- The option for the last kind that is asked for, if the compact form knows that kind. -/
def kindWords (clauses : List Clause) : List Word :=
  match (kindsOf clauses).getLast? with
  | some kind =>
    if isOneOf ["f", "d"] kind.value then [Word.ofText "-t".toList, Word.ofText kind.value] else []
  | none => []

theorem map_kindOption (clauses : List Clause) :
    (Criteria.ofClauses clauses).kindOption.map Word.ofText = kindWords clauses := by
  rw [Criteria.kindOption, Criteria.ofClauses, kindWords]
  cases (kindsOf clauses).getLast? with
  | none => rfl
  | some kind =>
    dsimp only [Option.map_some]
    split
    · rfl
    · rfl

theorem Criteria.isWord_of_mem_kindOption {criteria : Criteria} {t : List Char}
    (h : t ∈ criteria.kindOption) : IsWord t := by
  rw [kindOption] at h
  split at h
  · split at h
    · rename_i kind _ hkind
      obtain ⟨choice, hchoice, rfl⟩ := isOneOf_iff.1 hkind
      rw [List.mem_pair] at hchoice h
      rcases h with rfl | rfl
      · decide
      · rcases hchoice with rfl | rfl
        · decide
        · decide
    · cases h
  · cases h

theorem toList_getLast? {α : Type} {xs : List α} (h : xs.length ≤ 1) : xs.getLast?.toList = xs := by
  cases xs with
  | nil => rfl
  | cons x xs =>
    rw [List.length_cons] at h
    obtain rfl := List.eq_nil_of_length_eq_zero (by omega : xs.length = 0)
    rfl

/-- The texts of a compact command are its words. -/
theorem Criteria.words_joinBlank_texts? {body : List Char} (hwhole : IsWhole body)
    {criteria : Criteria} (hfrom : criteria.FromWords body) {name : Word}
    (hname : criteria.name = some name) {texts : List (List Char)}
    (htexts : criteria.texts? = some texts) :
    words (joinBlank texts) = [Word.ofText "rtk".toList, Word.ofText "find".toList, name] ++
      (criteria.path.toList ++ criteria.kindOption.map Word.ofText) := by
  have hpath : ∀ path ∈ criteria.path.toList, path ∈ words body := fun path hmem =>
    hfrom.path path (Option.mem_toList.1 hmem)
  have hsame : criteria.path.toList.map (Word.ofText ∘ Word.raw) = criteria.path.toList.map id :=
    List.map_congr_left fun path hmem => ofText_raw_of_mem_words (hpath path hmem)
  rw [texts?, hname, Option.map_some, Option.some.injEq] at htexts
  subst htexts
  rw [words_joinBlank_of_isWord]
  · simp only [List.map_cons, List.map_append, List.map_map, hsame, List.map_id,
      ofText_raw_of_mem_words (hfrom.name name hname)]
    rfl
  · rw [List.forall_mem_cons, List.forall_mem_cons, List.forall_mem_cons, List.forall_mem_append,
      List.forall_mem_map]
    exact ⟨by decide, by decide, isWord_of_mem_words hwhole (hfrom.name name hname),
      fun path hmem => isWord_of_mem_words hwhole (hpath path hmem),
      fun t ht => Criteria.isWord_of_mem_kindOption ht⟩

/-- What a translation without an operator is made from. -/
theorem exists_criteria_of_translateFind? {body new : List Char} (h : translateFind? body = some new) :
    ∃ criteria texts, Criteria.ofWords? (words (splitAtOperator body).1) = some criteria ∧
      criteria.texts? = some texts ∧ new = joinBlank texts ++ (splitAtOperator body).2 := by
  obtain ⟨criteria, hcriteria, h⟩ := Option.bind_eq_some_iff.1 h
  obtain ⟨texts, htexts, rfl⟩ := Option.map_eq_some_iff.1 h
  exact ⟨criteria, texts, hcriteria, htexts, rfl⟩

/-- **Which searches of file names are translated.** They are those that run `find` without an
action, whose words split into clauses with a name and no second path. The compact command has the
last name, the path and, if the last kind is one of its own, an option for that kind; the name and
the path are the words that were typed. -/
theorem translateFind?_iff_splits {body : List Char} (hwhole : IsWhole body)
    (hfree : hasOperator body = false) :
    ((translateFind? body).isSome = true ↔
      ∃ program args clauses bare, words body = program :: args ∧ program.value = "find".toList ∧
        (∀ w ∈ args, isOneOf Criteria.actions w.value = false) ∧ Splits args clauses bare ∧
        (pathsOf clauses).length ≤ 1 ∧ namesOf clauses ≠ []) ∧
    ∀ new program args clauses bare, translateFind? body = some new →
      words body = program :: args → Splits args clauses bare →
        ∃ name, (namesOf clauses).getLast? = some name ∧
          words new = [Word.ofText "rtk".toList, Word.ofText "find".toList, name] ++
            (pathsOf clauses ++ kindWords clauses) := by
  have hsplit := splitAtOperator_of_eq_none (hasOperator_eq_false_iff.1 hfree)
  refine ⟨⟨fun hsome => ?_, ?_⟩, ?_⟩
  · obtain ⟨new, hnew⟩ := Option.isSome_iff_exists.1 hsome
    obtain ⟨criteria, texts, hcriteria, htexts, -⟩ := exists_criteria_of_translateFind? hnew
    rw [hsplit] at hcriteria
    obtain ⟨program, args, clauses, bare, hwords, hprogram, hactions, hsplits, hone, rfl⟩ :=
      Criteria.exists_splits hcriteria
    refine ⟨program, args, clauses, bare, hwords, hprogram, hactions, hsplits, hone, ?_⟩
    intro hnone
    rw [Criteria.texts?, Criteria.ofClauses, hnone] at htexts
    cases htexts
  · rintro ⟨program, args, clauses, bare, hwords, hprogram, hactions, hsplits, hone, hnames⟩
    have hread := hsplits.ofWords?_eq hprogram hactions
    rw [if_pos hone] at hread
    rw [translateFind?, hsplit]
    dsimp only
    rw [hwords, hread, Option.bind_some, Option.isSome_map, Criteria.texts?, Option.isSome_map]
    exact List.getLast?_isSome.2 hnames
  · intro new program args clauses bare hnew hwords hsplits
    obtain ⟨criteria, texts, hcriteria, htexts, rfl⟩ := exists_criteria_of_translateFind? hnew
    rw [hsplit] at hcriteria ⊢
    have hfrom := Criteria.fromWords_of_ofWords? hcriteria
    obtain ⟨name, hname, -⟩ := Option.map_eq_some_iff.1 htexts
    have hnew := Criteria.words_joinBlank_texts? hwhole hfrom hname htexts
    -- the split that is given is read to the same criteria
    obtain ⟨program, args, -, -, hcommand, hprogram, hactions, -⟩ :=
      Criteria.exists_splits hcriteria
    obtain ⟨rfl, rfl⟩ := List.cons.inj (hwords.symm.trans hcommand)
    rw [hwords, hsplits.ofWords?_eq hprogram hactions, Option.ite_none_right_eq_some,
      Option.some.injEq] at hcriteria
    obtain ⟨hone, rfl⟩ := hcriteria
    have hpath : (Criteria.ofClauses clauses).path.toList = pathsOf clauses := toList_getLast? hone
    rw [hpath, map_kindOption] at hnew
    exact ⟨name, hname, by rw [List.append_nil, hnew]⟩

theorem translateFind?_iff_splits_quoted :
    words "find \"\" -name -type -iname 'a b' -type f -name".toList =
        Word.ofText "find".toList ::
          ["\"\"", "-name", "-type", "-iname", "'a b'", "-type", "f", "-name"].map
            (Word.ofText ·.toList) ∧
      words "rtk find 'a b' \"\" -t f".toList =
        ["rtk", "find", "'a b'", "\"\"", "-t", "f"].map (Word.ofText ·.toList) := by
  have hwords : words "find \"\" -name -type -iname 'a b' -type f -name".toList =
      Word.ofText "find".toList :: ["\"\"", "-name", "-type", "-iname", "'a b'", "-type", "f",
        "-name"].map (Word.ofText ·.toList) := by decide +kernel
  obtain ⟨name, hname, hnew⟩ :=
    (translateFind?_iff_splits (by decide +kernel) (by decide +kernel)).2
      "rtk find 'a b' \"\" -t f".toList _ _
      [.path (Word.ofText "\"\"".toList),
        .name (Word.ofText "-name".toList) (Word.ofText "-type".toList),
        .name (Word.ofText "-iname".toList) (Word.ofText "'a b'".toList),
        .kind (Word.ofText "-type".toList) (Word.ofText "f".toList)]
      (some (Word.ofText "-name".toList)) (by decide +kernel) hwords (by decide +kernel)
  obtain rfl := Option.some.inj hname
  exact ⟨hwords, hnew⟩

/-! ## Clauses that are passed over -/

/-- There is room for one value of the criterion, and a later one takes the place of it. -/
def Criterion.isOverwritten : Criterion → Bool
  | .name => true
  | .kind => true
  | _ => false

/-- A later clause gives another value for the criterion, in the place of this one. -/
def Clause.isOverruled (later : List Clause) (clause : Clause) : Bool :=
  clause.criterion.isOverwritten && !(valuesOf clause.criterion later).isEmpty

/-- The clauses that no later one overrules. -/
def effective : List Clause → List Clause
  | [] => []
  | clause :: later =>
    if clause.isOverruled later then effective later else clause :: effective later

theorem effective_sublist (clauses : List Clause) : (effective clauses).Sublist clauses := by
  induction clauses with
  | nil => exact List.Sublist.slnil
  | cons clause later ih =>
    rw [effective]
    split
    · exact ih.cons clause
    · exact ih.cons_cons clause

/-- Of several values that take each other's place the last one is kept. -/
theorem valuesOf_effective (criterion : Criterion) (clauses : List Clause) :
    valuesOf criterion (effective clauses) =
      if criterion.isOverwritten then (valuesOf criterion clauses).getLast?.toList
      else valuesOf criterion clauses := by
  induction clauses with
  | nil =>
    split
    · rfl
    · rfl
  | cons clause later ih =>
    rw [effective, valuesOf_cons]
    by_cases hsame : clause.criterion = criterion
    · rw [if_pos hsame, Clause.isOverruled, hsame]
      cases hover : criterion.isOverwritten with
      | false =>
        rw [hover, if_neg Bool.false_ne_true] at ih
        rw [Bool.false_and, if_neg Bool.false_ne_true, if_neg Bool.false_ne_true, valuesOf_cons,
          if_pos hsame, ih]
      | true =>
        rw [hover, if_pos rfl] at ih
        rw [Bool.true_and, if_pos rfl]
        cases hlater : valuesOf criterion later with
        | nil =>
          rw [hlater] at ih
          rw [List.isEmpty_nil, if_neg (by decide), valuesOf_cons, if_pos hsame, ih]
          rfl
        | cons next values =>
          rw [List.isEmpty_cons, if_pos (by decide), ih, hlater, List.getLast?_cons_cons]
    · rw [if_neg hsame, ← ih]
      split
      · rfl
      · rw [valuesOf_cons, if_neg hsame]

theorem ofClauses_effective (clauses : List Clause) :
    Criteria.ofClauses (effective clauses) = Criteria.ofClauses clauses := by
  have hlast : ∀ last : Option Word, last.toList.getLast? = last := by
    rintro (_ | _)
    · rfl
    · rfl
  have hnames : namesOf (effective clauses) = (namesOf clauses).getLast?.toList :=
    valuesOf_effective .name clauses
  have hkinds : kindsOf (effective clauses) = (kindsOf clauses).getLast?.toList :=
    valuesOf_effective .kind clauses
  have hpaths : pathsOf (effective clauses) = pathsOf clauses := valuesOf_effective .path clauses
  rw [Criteria.ofClauses, Criteria.ofClauses, hnames, hkinds, hpaths, hlast, hlast]

/-- Nothing is overruled if there is one name and one kind at most. -/
theorem effective_eq_self_iff {clauses : List Clause} :
    effective clauses = clauses ↔
      ∀ criterion : Criterion, criterion.isOverwritten = true →
        (valuesOf criterion clauses).length ≤ 1 := by
  constructor
  · intro hself criterion hover
    have hvalues := valuesOf_effective criterion clauses
    rw [hself, if_pos hover] at hvalues
    rw [hvalues]
    exact Option.length_toList_le
  · intro hone
    induction clauses with
    | nil => rfl
    | cons clause later ih =>
      have hshort : ∀ criterion : Criterion, criterion.isOverwritten = true →
          (valuesOf criterion later).length ≤ 1 := by
        intro criterion hover
        refine Nat.le_trans ?_ (hone criterion hover)
        rw [valuesOf_cons]
        split
        · exact Nat.le_succ _
        · exact Nat.le_refl _
      have hkept : clause.isOverruled later = false := by
        cases hover : clause.criterion.isOverwritten with
        | false => rw [Clause.isOverruled, hover, Bool.false_and]
        | true =>
          have hlength := hone clause.criterion hover
          rw [valuesOf_cons, if_pos rfl, List.length_cons] at hlength
          have hnone := List.eq_nil_of_length_eq_zero (Nat.le_zero.1 (Nat.le_of_succ_le_succ hlength))
          rw [Clause.isOverruled, hnone, List.isEmpty_nil, Bool.not_true, Bool.and_false]
      rw [effective, hkept, if_neg Bool.false_ne_true, ih hshort]

/-- **A search that asks twice is translated like one that asks once.** Of several names, or
several kinds, the last one is searched for, and a last option without a name counts for nothing.
Without the clauses that are passed over the search has the same criteria; it has no such clause
exactly if it asks for one name, for one kind at most, and gives a value for each. -/
theorem overruled_clauses_dropped {body new : List Char} (h : translateFind? body = some new) :
    ∃ program args clauses bare texts, words (splitAtOperator body).1 = program :: args ∧
      Splits args clauses bare ∧
      (Criteria.ofWords? (program :: (effective clauses).flatMap Clause.args)).bind
        Criteria.texts? = some texts ∧
      new = joinBlank texts ++ (splitAtOperator body).2 ∧
      (effective clauses).Sublist clauses ∧
      namesOf (effective clauses) = (namesOf clauses).getLast?.toList ∧
      (namesOf (effective clauses)).length = 1 ∧
      kindsOf (effective clauses) = (kindsOf clauses).getLast?.toList ∧
      ((effective clauses).flatMap Clause.args = args ↔
        (namesOf clauses).length = 1 ∧ (kindsOf clauses).length ≤ 1 ∧ bare = none) := by
  obtain ⟨criteria, texts, hcriteria, htexts, rfl⟩ := exists_criteria_of_translateFind? h
  obtain ⟨program, args, clauses, bare, hwords, hprogram, hactions, hsplits, hone, rfl⟩ :=
    Criteria.exists_splits hcriteria
  have hsub := effective_sublist clauses
  have hkept : Splits ((effective clauses).flatMap Clause.args) (effective clauses) none :=
    ⟨(List.append_nil _).symm, fun clause hmem => hsplits.proper clause (hsub.subset hmem),
      fun _ hmem => (Option.not_mem_none _ hmem).elim⟩
  have hsmaller : ∀ w ∈ (effective clauses).flatMap Clause.args,
      isOneOf Criteria.actions w.value = false := by
    intro w hw
    obtain ⟨clause, hclause, hmem⟩ := List.mem_flatMap.1 hw
    refine hactions w ?_
    rw [hsplits.args_eq]
    exact List.mem_append_left _ (List.mem_flatMap.2 ⟨clause, hsub.subset hclause, hmem⟩)
  have hread := hkept.ofWords?_eq hprogram hsmaller
  have hpaths : pathsOf (effective clauses) = pathsOf clauses := valuesOf_effective .path clauses
  rw [hpaths, if_pos hone, ofClauses_effective] at hread
  obtain ⟨name, hname, -⟩ := Option.map_eq_some_iff.1 htexts
  have hlast : (namesOf clauses).getLast? = some name := hname
  have hnames : namesOf (effective clauses) = (namesOf clauses).getLast?.toList :=
    valuesOf_effective .name clauses
  refine ⟨program, args, clauses, bare, texts, hwords, hsplits, ?_, rfl, hsub, hnames, ?_,
    valuesOf_effective .kind clauses, ?_, ?_⟩
  · rw [hread, Option.bind_some, htexts]
  · rw [hnames, hlast]
    rfl
  · intro hargs
    obtain ⟨hself, rfl⟩ := (hargs ▸ hkept).unique hsplits
    rw [hself, hlast] at hnames
    exact ⟨by rw [hnames]; rfl, effective_eq_self_iff.1 hself .kind rfl, rfl⟩
  · rintro ⟨hsingle, hkinds, rfl⟩
    have hself : effective clauses = clauses := by
      refine effective_eq_self_iff.2 ?_
      intro criterion hover
      cases criterion with
      | name => exact Nat.le_of_eq hsingle
      | kind => exact hkinds
      | depth | path | unknown => cases hover
    rw [hself, hsplits.args_eq]
    exact (List.append_nil _).symm

theorem overruled_clauses_dropped_two_names :
    translateFind? "find . -type f -name a -iname 'b c'".toList =
        some "rtk find 'b c' . -t f".toList ∧
      ∃ clauses bare, Splits
          ([".", "-type", "f", "-name", "a", "-iname", "'b c'"].map (Word.ofText ·.toList))
          clauses bare ∧
        namesOf (effective clauses) = (namesOf clauses).getLast?.toList ∧
        (namesOf (effective clauses)).length = 1 := by
  have hnew : translateFind? "find . -type f -name a -iname 'b c'".toList =
      some "rtk find 'b c' . -t f".toList := by decide +kernel
  have hread : words (splitAtOperator "find . -type f -name a -iname 'b c'".toList).1 =
      Word.ofText "find".toList ::
        [".", "-type", "f", "-name", "a", "-iname", "'b c'"].map (Word.ofText ·.toList) := by
    decide +kernel
  obtain ⟨program, args, clauses, bare, texts, hwords, hsplits, -, -, -, hnames, hone, -⟩ :=
    overruled_clauses_dropped hnew
  obtain ⟨-, rfl⟩ := List.cons.inj (hread.symm.trans hwords)
  exact ⟨hnew, clauses, bare, hsplits, hnames, hone⟩

/-- With several names, several kinds or an option without a name, something else is searched for
than was asked for. -/
theorem criteria_asked_twice_translated :
    translateFind? "find . -name '*.c' -name 'a*'".toList = some "rtk find 'a*' .".toList ∧
      translateFind? "find . -type f -type d -name a".toList = some "rtk find a . -t d".toList ∧
      translateFind? "find . -name a -name".toList = some "rtk find a .".toList := by
  decide +kernel

end CompactShell.Search
