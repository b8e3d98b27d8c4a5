import CompactShell.Proofs.Search.Readings
import CompactShell.Proofs.Shell.Letters

/-!
# Positional words that become flags

The compact forms put a pattern or a name first and a path behind it, and the tool reads a word with
a dash in front as one of its own flags. Only the pattern of a search of file contents is tested for
a dash, and the test looks at the value, where backslashes are not off yet.

`flags_of_search_iff` says for each place when the word there is a flag: a pattern if it hides its
dash behind a backslash; the path of a search of file contents also if it is a dash alone or stands
behind the end of the options; a name whenever its word is one; a path of a search of file names
again only if its dash is hidden.
-/

namespace CompactShell.Search

open Rule Shell Text

/-! ## Values without their quotes -/

/-- The value of the word is the word without its quotes. -/
def IsUnquoted (w : Word) : Prop :=
  w.value = unquoted .start w.raw

theorem isUnquoted_of_mem_words {command : List Char} {w : Word} (hw : w ∈ words command) :
    IsUnquoted w :=
  (congrArg Word.value (ofText_raw_of_mem_words hw)).symm

theorem isUnquoted_requote (text : List Char) : IsUnquoted ⟨requote text, text⟩ :=
  (unquoted_requote text).symm

/-- What stands behind the name of an option keeps that its value is without quotes. -/
theorem isUnquoted_attachedValue {w : Word} (hw : IsUnquoted w) {lead : String}
    (hlead : PlainText lead.toList) : IsUnquoted (attachedValue lead w) := by
  rw [attachedValue]
  split
  · rename_i hraw
    obtain ⟨rest, hrest⟩ := startsWith_iff.1 hraw
    rw [IsUnquoted, hrest, unquoted_plainText_append hlead] at hw
    rw [IsUnquoted]
    dsimp only
    rw [hw, hrest, ← String.length_toList, List.drop_left, List.drop_left]
  · exact isUnquoted_requote _

theorem isFlag_iff_of_isUnquoted {w : Word} (h : IsUnquoted w) :
    isFlag w.raw = true ↔ startsWith "-" w.value = true ∨ hidesDash w.raw = true := by
  rw [isFlag_iff, h]

/-- The pattern or the positional word of the item, if it is one, has its value without quotes. -/
def Item.IsUnquoted : Item → Prop
  | .pattern w => Search.IsUnquoted w
  | .positional w => Search.IsUnquoted w
  | .option _ => True

theorem Role.isUnquoted_item (role : Role) {value : Word} (h : IsUnquoted value) :
    (role.item value).IsUnquoted := by
  cases role with
  | pattern => exact h
  | option flag => trivial

theorem Cluster.isUnquoted_flagItems (cluster : Cluster) :
    ∀ item ∈ cluster.flagItems, item.IsUnquoted := by
  rcases cluster.flagItems_cases with h | ⟨kept, -, -, h⟩
  · rw [h]
    exact List.forall_mem_nil _
  · rw [h, List.forall_mem_singleton]
    trivial

theorem OptionReads.isUnquoted {searcher : Searcher} {w : Word} (hw : IsUnquoted w)
    {reading : Reading} (h : OptionReads searcher w reading) :
    ∀ item ∈ reading.made, item.IsUnquoted := by
  cases h with
  | untranslatable => exact List.forall_mem_nil _
  | redundant => exact List.forall_mem_nil _
  | @equals lead role hrole hvalue =>
    have hplain : ∀ entry ∈ equalsRoles, PlainText entry.1.toList := by
      rw [equalsRoles, List.forall_mem_cons, List.forall_mem_singleton]
      exact ⟨plainText_of_isOwn (by decide), plainText_of_isOwn (by decide)⟩
    rw [Reading.made, List.forall_mem_singleton]
    exact role.isUnquoted_item (isUnquoted_attachedValue hw (hplain _ hrole))
  | next hrole => exact List.forall_mem_nil _
  | flags hcluster => exact Cluster.isUnquoted_flagItems _
  | flagsNext hcluster hrole => exact Cluster.isUnquoted_flagItems _
  | @flagsAttached flags attached letter role hcluster hne hrole =>
    rw [Reading.made, List.forall_mem_append, List.forall_mem_singleton]
    exact ⟨Cluster.isUnquoted_flagItems _, role.isUnquoted_item (isUnquoted_requote attached)⟩
  | kept =>
    rw [Reading.made, List.forall_mem_singleton]
    trivial

/-- The patterns and positional words of a search have their values without quotes. -/
theorem isUnquoted_of_readItems? {searcher : Searcher} {args : List Word} {items : List Item}
    (hargs : ∀ w ∈ args, IsUnquoted w) (h : readItems? searcher args = some items) :
    ∀ item ∈ items, item.IsUnquoted := by
  fun_induction readItems? searcher args generalizing items with
  | case1 =>
    cases h
    exact List.forall_mem_nil _
  | case2 word rest said hsaid ih =>
    obtain ⟨more, hmore, rfl⟩ := Option.map_eq_some_iff.1 h
    rw [List.forall_mem_cons] at hargs
    refine List.forall_mem_append.2 ⟨?_, ih hargs.2 hmore⟩
    rcases ofWord_items_cases hsaid with hreads | ⟨-, rfl⟩
    · exact hreads.isUnquoted hargs.1
    · rw [List.forall_mem_singleton]
      exact hargs.1
  | case3 => cases h
  | case4 word said role hsaid value rest ih =>
    obtain ⟨more, hmore, rfl⟩ := Option.map_eq_some_iff.1 h
    rw [List.forall_mem_cons, List.forall_mem_cons] at hargs
    exact List.forall_mem_append.2 ⟨(optionReads_of_valueNext hsaid).isUnquoted hargs.1,
      List.forall_mem_cons.2 ⟨role.isUnquoted_item hargs.2.1, ih hargs.2.2 hmore⟩⟩
  | case5 word rest hsaid =>
    cases h
    intro item hitem
    obtain ⟨w, hw, rfl⟩ := List.mem_map.1 hitem
    exact hargs w (List.mem_cons_of_mem _ hw)
  | case6 => cases h

/-! ## Searches of file contents -/

theorem Query.not_startsWith_dash_of_place? {options : List (List Char)} {pattern : Word}
    {paths : List Word} {query : Query} (h : Query.place? options pattern paths = some query) :
    startsWith "-" query.pattern.value = false := by
  obtain ⟨-, rfl, -⟩ := Query.place?_spec h
  by_contra hdash
  rw [Bool.not_eq_false] at hdash
  unfold Query.place? at h
  rw [if_pos hdash] at h
  cases h

/-- The pattern of a query has been tested for a dash. -/
theorem Query.not_startsWith_dash {items : List Item} {query : Query}
    (h : Query.ofItems? items = some query) : startsWith "-" query.pattern.value = false := by
  simp only [Query.ofItems?] at h
  split at h
  · cases h
  · exact not_startsWith_dash_of_place? h
  · exact not_startsWith_dash_of_place? h
  · cases h

/-- **The flags of a query.** A pattern is a flag if it hides a dash; a path also if it is a dash
alone, or if it starts with one behind the end of the options. -/
theorem Query.isFlag_iff {searcher : Searcher} {args : List Word} {items : List Item}
    {query : Query} (hargs : ∀ w ∈ args, IsUnquoted w)
    (hitems : readItems? searcher args = some items) (hquery : Query.ofItems? items = some query) :
    (isFlag query.pattern.raw = true ↔ hidesDash query.pattern.raw = true) ∧
      ∀ path ∈ query.path, (isFlag path.raw = true ↔
        hidesDash path.raw = true ∨ path.value = ['-'] ∨
          path ∈ behindEnd searcher args ∧ startsWith "-" path.value = true) := by
  have hall := isUnquoted_of_readItems? hargs hitems
  have hpatterns : ∀ w ∈ patternsOf items, IsUnquoted w := fun w hw =>
    hall _ (mem_of_mem_patternsOf hw)
  have hpositionals : ∀ w ∈ positionalsOf items, IsUnquoted w := fun w hw =>
    hall _ (mem_of_mem_positionalsOf hw)
  have hparts := (Query.ofItems?_spec hquery).2
  refine ⟨?_, fun path hpath => ?_⟩
  · have hpattern : IsUnquoted query.pattern := by
      rcases hparts with ⟨-, hwords⟩ | ⟨hwords, -⟩
      · exact hpositionals _ (hwords ▸ List.mem_cons_self ..)
      · exact hpatterns _ (hwords ▸ List.mem_cons_self ..)
    rw [isFlag_iff_of_isUnquoted hpattern, Query.not_startsWith_dash hquery]
    exact or_iff_right Bool.false_ne_true
  · have hmem : path ∈ positionalsOf items := by
      have hpath : path ∈ query.path.toList := Option.mem_toList.2 hpath
      rcases hparts with ⟨-, hwords⟩ | ⟨-, hwords⟩
      · exact hwords ▸ List.mem_cons_of_mem _ hpath
      · exact hwords ▸ hpath
    rw [isFlag_iff_of_isUnquoted (hpositionals path hmem)]
    constructor
    · rintro (hdash | hhidden)
      · -- the reader lets a word with a dash through if it is alone, or behind the end
        obtain ⟨front, hsplit, hfront⟩ := positionalsOf_readItems? hitems
        rw [hsplit] at hmem
        rcases List.mem_append.1 hmem with hmem | hmem
        · rcases hfront path hmem with hno | halone
          · exact absurd (hno.symm.trans hdash) Bool.false_ne_true
          · exact .inr (.inl halone)
        · exact .inr (.inr ⟨hmem, hdash⟩)
      · exact .inl hhidden
    · rintro (hhidden | halone | ⟨-, hdash⟩)
      · exact .inr hhidden
      · rw [halone]
        exact .inl rfl
      · exact .inl hdash

/-! ## Searches of file names -/

theorem Criterion.not_startsWith_dash {w : Word} (h : Criterion.ofWord w = .path) :
    startsWith "-" w.value = false := by
  by_contra hdash
  rw [Bool.not_eq_false] at hdash
  rw [ofWord] at h
  split at h
  · cases h
  split at h
  · cases h
  split at h
  · cases h
  · cases h

/-- A path that is read starts with no dash. -/
theorem Criteria.not_startsWith_dash {criteria result : Criteria} {args : List Word}
    (hpath : ∀ path ∈ criteria.path, startsWith "-" path.value = false)
    (h : criteria.read? args = some result) :
    ∀ path ∈ result.path, startsWith "-" path.value = false := by
  fun_induction Criteria.read? criteria args with
  | case1 =>
    cases h
    exact hpath
  | case2 =>
    cases h
    exact hpath
  | case3 criteria word value rest _ ih => exact ih hpath h
  | case4 criteria word value rest _ ih => exact ih hpath h
  | case5 criteria word value rest _ ih => exact ih hpath h
  | case6 => cases h
  | case7 criteria word rest hword _ ih =>
    refine ih (fun path hmem => ?_) h
    obtain rfl := Option.some.inj hmem
    exact Criterion.not_startsWith_dash hword
  | case8 => cases h

theorem Criteria.not_startsWith_dash_of_ofWords? {ws : List Word} {criteria : Criteria}
    (h : Criteria.ofWords? ws = some criteria) :
    ∀ path ∈ criteria.path, startsWith "-" path.value = false := by
  cases ws with
  | nil => cases h
  | cons program args =>
    rw [Criteria.ofWords?, Option.ite_none_left_eq_some] at h
    exact Criteria.not_startsWith_dash (fun path hpath => (Option.not_mem_none _ hpath).elim) h.2

/-! ## Both searches -/

/-- **Which positional words are flags to the tool.** In a search of file contents the pattern is
one if it hides a dash, and the path if it hides a dash, is a dash alone, or starts with a dash
behind the end of the options. In a search of file names the name is one whenever the word that was
given starts with a dash, openly or hidden, and the path if it hides a dash. -/
theorem flags_of_search_iff (body new : List Char) :
    (translateGrep? body = some new →
      ∃ name args searcher query, words (splitAtOperator body).1 = name :: args ∧
        Searcher.ofWord? name.value = some searcher ∧
        Query.ofWords? (name :: args) = some query ∧
        new = joinBlank query.texts ++ (splitAtOperator body).2 ∧
        (isFlag query.pattern.raw = true ↔ hidesDash query.pattern.raw = true) ∧
        ∀ path ∈ query.path, (isFlag path.raw = true ↔
          hidesDash path.raw = true ∨ path.value = ['-'] ∨
            path ∈ behindEnd searcher args ∧ startsWith "-" path.value = true)) ∧
    (translateFind? body = some new →
      ∃ criteria name, Criteria.ofWords? (words (splitAtOperator body).1) = some criteria ∧
        criteria.name = some name ∧
        new = joinBlank ("rtk".toList :: "find".toList :: name.raw ::
          (criteria.path.toList.map Word.raw ++ criteria.kindOption)) ++ (splitAtOperator body).2 ∧
        (isFlag name.raw = true ↔ startsWith "-" name.value = true ∨ hidesDash name.raw = true) ∧
        ∀ path ∈ criteria.path, (isFlag path.raw = true ↔ hidesDash path.raw = true)) := by
  constructor
  · intro h
    obtain ⟨query, hquery, rfl⟩ := Option.map_eq_some_iff.1 h
    obtain ⟨name, args, searcher, items, hwords, hsearcher, hitems, hparts⟩ :=
      Query.exists_args_of_ofWords? hquery
    have hargs : ∀ w ∈ args, IsUnquoted w := fun w hw =>
      isUnquoted_of_mem_words (hwords ▸ List.mem_cons_of_mem name hw)
    exact ⟨name, args, searcher, query, hwords, hsearcher, hwords ▸ hquery, rfl,
      Query.isFlag_iff hargs hitems hparts⟩
  · intro h
    obtain ⟨criteria, hcriteria, h⟩ := Option.bind_eq_some_iff.1 h
    obtain ⟨texts, htexts, rfl⟩ := Option.map_eq_some_iff.1 h
    obtain ⟨name, hname, rfl⟩ := Option.map_eq_some_iff.1 htexts
    have hfrom := Criteria.fromWords_of_ofWords? hcriteria
    refine ⟨criteria, name, hcriteria, hname, rfl,
      isFlag_iff_of_isUnquoted (isUnquoted_of_mem_words (hfrom.name name hname)), ?_⟩
    intro path hpath
    rw [isFlag_iff_of_isUnquoted (isUnquoted_of_mem_words (hfrom.path path hpath)),
      Criteria.not_startsWith_dash_of_ofWords? hcriteria path hpath]
    exact or_iff_right Bool.false_ne_true

/-- The routes by which a word with a dash comes through: behind the end of the options, behind a
backslash, and as a name. -/
theorem dash_words_become_flags :
    translateGrep? "grep -- foo -bar".toList = some "rtk grep foo -bar".toList ∧
      translateGrep? "grep \\-v src".toList = some "rtk grep \\-v src".toList ∧
      translateFind? "find . -name -foo".toList = some "rtk find -foo .".toList ∧
      translateFind? "find \\-d -name foo".toList = some "rtk find foo \\-d".toList ∧
      ∀ raw ∈ ["-bar", "\\-v", "-foo", "\\-d"], isFlag raw.toList = true := by
  decide +kernel

/-- The path behind two dashes is a flag, and the pattern is none. -/
theorem flags_of_search_iff_behind_end :
    translateGrep? "grep -i -- foo -bar".toList = some "rtk grep foo -bar -i".toList ∧
      isFlag "foo".toList = false ∧ isFlag "-bar".toList = true := by
  have htranslate : translateGrep? "grep -i -- foo -bar".toList =
      some "rtk grep foo -bar -i".toList := by decide +kernel
  obtain ⟨name, args, searcher, query, hwords, hsearcher, hquery, -, hpattern, hpath⟩ :=
    (flags_of_search_iff _ _).1 htranslate
  have hargs : name :: args = ["grep", "-i", "--", "foo", "-bar"].map fun w =>
      ⟨w.toList, w.toList⟩ := by
    rw [← hwords]
    decide +kernel
  obtain ⟨rfl, rfl⟩ := List.cons.inj hargs
  obtain rfl : searcher = .grep := Option.some.inj hsearcher.symm
  obtain rfl : query = ⟨⟨"foo".toList, "foo".toList⟩, some ⟨"-bar".toList, "-bar".toList⟩,
      ["-i".toList]⟩ := by
    refine Option.some.inj (hquery.symm.trans ?_)
    decide +kernel
  refine ⟨htranslate, ?_, ?_⟩
  · rw [← Bool.not_eq_true, hpattern]
    decide
  · exact (hpath _ rfl).2 (.inr (.inr (by decide +kernel)))

end CompactShell.Search
