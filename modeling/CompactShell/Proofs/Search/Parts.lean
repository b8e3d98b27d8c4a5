import CompactShell.Proofs.Search.Emitted
import CompactShell.Proofs.Shell.Places

/-!
# Where the parts of a compact command come from

The translations put the words of a command in a new order: what is searched for first, then where,
then the options. The functions here say for each text of the compact command which place it has in
that order and which characters of the command it was made of, its source. They make up what the
translations give (`joinBlank_grepParts`, `joinBlank_findParts`, `headParts_eq`), and they stand by
their places, and in one place by their sources (`pairwise_grepParts`, `pairwise_findParts`,
`pairwise_headParts`).
-/

namespace CompactShell.Search

open Rule Shell Text

/-! ## Parts -/

/-- The places in a compact command, in their order. -/
inductive Place where
  /-- A pattern given by an option, a name, or the file to read. -/
  | subject
  /-- A word that is no option and no option's value. -/
  | positional
  | option
  deriving DecidableEq, Repr

def Place.rank : Place → Nat
  | subject => 0
  | positional => 1
  | option => 2

/-- A text of a compact command with its place and its source. -/
structure Part where
  place : Place
  source : Span
  text : List Char
  deriving DecidableEq, Repr

/-- The one part has its source in front of the other's, or the same source. -/
def Part.FollowedBy (a b : Part) : Prop :=
  a.source = b.source ∨ a.source.stop ≤ b.source.start

/-- The one part stands in front of the other in the compact command. -/
def Part.Precedes (a b : Part) : Prop :=
  a.place.rank < b.place.rank ∨ a.place = b.place ∧ a.FollowedBy b

/-- **What is moved across a position.** Of parts in their order, take one that has the position in
its source or comes from behind it. No part from in front of the position stands behind it, exactly
if none has a later place. -/
theorem forall_behind_iff {parts : List Part} (hparts : parts.Pairwise Part.Precedes)
    (hspan : ∀ part ∈ parts, part.source.start ≤ part.source.stop) {before after : List Part}
    {part : Part} (hsplit : parts = before ++ part :: after) {p : Nat} (hp : p < part.source.stop) :
    (∀ other ∈ after, p < other.source.stop) ↔
      ∀ other ∈ parts, other.source.stop ≤ p → other.place.rank ≤ part.place.rank := by
  subst hsplit
  obtain ⟨-, hbehind, hbefore⟩ := List.pairwise_append.1 hparts
  have hafter := (List.pairwise_cons.1 hbehind).1
  constructor
  · intro h other hother hle
    rcases List.mem_append.1 hother with hother | hother
    · rcases hbefore other hother part (List.mem_cons_self ..) with hrank | ⟨hplace, -⟩
      · exact Nat.le_of_lt hrank
      · rw [hplace]
    · rcases List.mem_cons.1 hother with rfl | hother
      · exact Nat.le_refl _
      · exact absurd (h other hother) (Nat.not_lt.2 hle)
  · intro h other hother
    by_contra hlt
    have hle := Nat.not_lt.1 hlt
    have hmem : other ∈ before ++ part :: after :=
      List.mem_append_right _ (List.mem_cons_of_mem _ hother)
    have hrank := h other hmem hle
    have hothers := hspan other hmem
    rcases hafter other hother with hlater | ⟨-, hsame | hfollows⟩
    · omega
    · rw [hsame] at hp
      omega
    · omega

/-! ## Searches of file contents -/

def Item.parts (source : Span) : Item → List Part
  | .pattern word => [⟨.subject, source, word.raw⟩]
  | .positional word => [⟨.positional, source, word.raw⟩]
  | .option texts => texts.map (⟨.option, source, ·⟩)

/-- The parts that an option makes with its value, each from its own word. -/
def Role.parts (source : Span) (value : PlacedWord) : Role → List Part
  | .pattern => [⟨.subject, value.span, value.word.raw⟩]
  | .option flag => [⟨.option, source, flag⟩, ⟨.option, value.span, value.word.raw⟩]

/-- The parts that the words behind a searcher's name make, in the order of the words. -/
def readParts (searcher : Searcher) : List PlacedWord → List Part
  | [] => []
  | placed :: rest =>
    match Reading.ofWord searcher placed.word with
    | .items items => items.flatMap (Item.parts placed.span) ++ readParts searcher rest
    | .valueNext items role =>
      match rest with
      | [] => []
      | value :: rest =>
        items.flatMap (Item.parts placed.span) ++
          (role.parts placed.span value ++ readParts searcher rest)
    | .endOfOptions => rest.map fun placed => ⟨.positional, placed.span, placed.word.raw⟩
    | .untranslatable => []

/-- The parts that have the place, in their order. -/
def inPlace (place : Place) (parts : List Part) : List Part :=
  parts.filter (·.place = place)

/-- The parts by their places. -/
def arrange (parts : List Part) : List Part :=
  inPlace .subject parts ++ (inPlace .positional parts ++ inPlace .option parts)

/-- The parts of a search of file contents, in the order of the compact command. -/
def grepParts (body : List Char) : List Part :=
  match wordsAt body with
  | [] => []
  | name :: args =>
    match Searcher.ofWord? name.word.value with
    | none => []
    | some searcher => arrange (readParts searcher args)

/-- The parts say what the items say. -/
structure Says (parts : List Part) (items : List Item) : Prop where
  subject : (inPlace .subject parts).map Part.text = (patternsOf items).map Word.raw
  positional : (inPlace .positional parts).map Part.text = (positionalsOf items).map Word.raw
  option : (inPlace .option parts).map Part.text = optionsOf items

theorem says_nil : Says [] [] := ⟨rfl, rfl, rfl⟩

theorem Says.append {parts more : List Part} {items others : List Item} (h : Says parts items)
    (hmore : Says more others) : Says (parts ++ more) (items ++ others) := by
  refine ⟨?_, ?_, ?_⟩
  · rw [inPlace, List.filter_append, List.map_append, patternsOf, List.filterMap_append,
      List.map_append]
    exact congrArg₂ _ h.subject hmore.subject
  · rw [inPlace, List.filter_append, List.map_append, positionalsOf, List.filterMap_append,
      List.map_append]
    exact congrArg₂ _ h.positional hmore.positional
  · rw [inPlace, List.filter_append, List.map_append, optionsOf, List.flatMap_append]
    exact congrArg₂ _ h.option hmore.option

theorem says_item (source : Span) (item : Item) : Says (item.parts source) [item] := by
  cases item with
  | pattern word => exact ⟨rfl, rfl, rfl⟩
  | positional word => exact ⟨rfl, rfl, rfl⟩
  | option texts =>
    have hnone : ∀ place, place ≠ Place.option →
        inPlace place ((Item.option texts).parts source) = [] := by
      intro place hplace
      rw [inPlace, List.filter_eq_nil_iff]
      intro part hpart
      obtain ⟨text, -, rfl⟩ := List.mem_map.1 hpart
      simpa using Ne.symm hplace
    have hall : inPlace .option ((Item.option texts).parts source) =
        (Item.option texts).parts source := by
      rw [inPlace, List.filter_eq_self]
      intro part hpart
      obtain ⟨text, -, rfl⟩ := List.mem_map.1 hpart
      rfl
    refine ⟨?_, ?_, ?_⟩
    · rw [hnone .subject (by decide)]
      rfl
    · rw [hnone .positional (by decide)]
      rfl
    · rw [hall, Item.parts, List.map_map, optionsOf, List.flatMap_singleton]
      exact List.map_id texts

theorem says_items (source : Span) (items : List Item) :
    Says (items.flatMap (Item.parts source)) items := by
  induction items with
  | nil => exact says_nil
  | cons item items ih =>
    rw [List.flatMap_cons]
    exact (says_item source item).append ih

theorem says_role (source : Span) (value : PlacedWord) (role : Role) :
    Says (role.parts source value) [role.item value.word] := by
  cases role with
  | pattern => exact ⟨rfl, rfl, rfl⟩
  | option flag => exact ⟨rfl, rfl, rfl⟩

/-- **Reading the parts is reading the items.** -/
theorem says_readParts {searcher : Searcher} {placed : List PlacedWord} {items : List Item}
    (h : readItems? searcher (placed.map PlacedWord.word) = some items) :
    Says (readParts searcher placed) items := by
  fun_induction readParts searcher placed generalizing items with
  | case1 =>
    cases h
    exact says_nil
  | case2 placed rest said hsaid ih =>
    rw [List.map_cons, readItems?, hsaid] at h
    obtain ⟨more, hmore, rfl⟩ := Option.map_eq_some_iff.1 h
    exact (says_items placed.span said).append (ih hmore)
  | case3 placed said role hsaid =>
    rw [List.map_cons, readItems?, hsaid] at h
    cases h
  | case4 placed said role hsaid value rest ih =>
    rw [List.map_cons, readItems?, hsaid] at h
    obtain ⟨more, hmore, rfl⟩ := Option.map_eq_some_iff.1 h
    exact (says_items placed.span said).append
      ((says_role placed.span value role).append (ih hmore))
  | case5 placed rest hsaid =>
    rw [List.map_cons, readItems?, hsaid] at h
    cases h
    clear hsaid
    induction rest with
    | nil => exact says_nil
    | cons value rest ih => exact (says_item value.span (.positional value.word)).append ih
  | case6 placed rest hsaid =>
    rw [List.map_cons, readItems?, hsaid] at h
    cases h

/-- What a search without an operator is made of: its words, their items and the query. -/
theorem exists_query_of_translateGrep? {body new : List Char} (hfree : findOperator body = none)
    (h : translateGrep? body = some new) :
    ∃ name args searcher items query, wordsAt body = name :: args ∧
      Searcher.ofWord? name.word.value = some searcher ∧
      readItems? searcher (args.map PlacedWord.word) = some items ∧
      Query.ofItems? items = some query ∧ new = joinBlank query.texts := by
  rw [translateGrep?, splitAtOperator_of_eq_none hfree] at h
  obtain ⟨query, hquery, rfl⟩ := Option.map_eq_some_iff.1 h
  rw [← map_word_wordsAt] at hquery
  obtain ⟨name, args, searcher, items, hwords, hsearcher, hitems, hparts⟩ :=
    Query.exists_args_of_ofWords? hquery
  obtain ⟨name, args, hwordsAt, rfl, rfl⟩ := List.map_eq_cons_iff.1 hwords
  exact ⟨name, args, searcher, items, query, hwordsAt, hsearcher, hitems, hparts,
    List.append_nil _⟩

/-- **The parts of a search make up its compact form.** -/
theorem joinBlank_grepParts {body new : List Char} (hfree : findOperator body = none)
    (h : translateGrep? body = some new) :
    new = joinBlank ("rtk".toList :: "grep".toList :: (grepParts body).map Part.text) := by
  obtain ⟨name, args, searcher, items, query, hwords, hsearcher, hitems, hquery, rfl⟩ :=
    exists_query_of_translateGrep? hfree h
  have hsays := says_readParts hitems
  obtain ⟨hoptions, hparts⟩ := Query.ofItems?_spec hquery
  rw [grepParts, hwords]
  dsimp only
  rw [hsearcher]
  dsimp only
  rw [arrange, List.map_append, List.map_append, hsays.subject, hsays.positional, hsays.option,
    Query.texts, hoptions]
  rcases hparts with ⟨hpatterns, hpositionals⟩ | ⟨hpatterns, hpositionals⟩
  · rw [hpatterns, hpositionals]
    rfl
  · rw [hpatterns, hpositionals]
    rfl

theorem source_of_mem_items {source : Span} {items : List Item} {part : Part}
    (h : part ∈ items.flatMap (Item.parts source)) : part.source = source := by
  obtain ⟨item, -, hpart⟩ := List.mem_flatMap.1 h
  cases item with
  | pattern word => rw [List.mem_singleton.1 hpart]
  | positional word => rw [List.mem_singleton.1 hpart]
  | option texts =>
    obtain ⟨text, -, rfl⟩ := List.mem_map.1 hpart
    rfl

theorem source_of_mem_role {source : Span} {value : PlacedWord} {role : Role} {part : Part}
    (h : part ∈ role.parts source value) : part.source = source ∨ part.source = value.span := by
  cases role with
  | pattern =>
    rw [List.mem_singleton.1 h]
    exact .inr rfl
  | option flag =>
    rcases List.mem_cons.1 h with rfl | h
    · exact .inl rfl
    · rw [List.mem_singleton.1 h]
      exact .inr rfl

/-- Every part is made of one of the words. -/
theorem exists_source_of_mem_readParts {searcher : Searcher} {placed : List PlacedWord}
    {part : Part} (h : part ∈ readParts searcher placed) : ∃ w ∈ placed, part.source = w.span := by
  fun_induction readParts searcher placed with
  | case1 => cases h
  | case2 placed rest said hsaid ih =>
    rcases List.mem_append.1 h with h | h
    · exact ⟨placed, List.mem_cons_self .., source_of_mem_items h⟩
    · obtain ⟨w, hw, hsource⟩ := ih h
      exact ⟨w, List.mem_cons_of_mem _ hw, hsource⟩
  | case3 => cases h
  | case4 placed said role hsaid value rest ih =>
    rw [List.mem_append, List.mem_append] at h
    rcases h with h | h | h
    · exact ⟨placed, List.mem_cons_self .., source_of_mem_items h⟩
    · rcases source_of_mem_role h with hsource | hsource
      · exact ⟨placed, List.mem_cons_self .., hsource⟩
      · exact ⟨value, List.mem_cons_of_mem _ (List.mem_cons_self ..), hsource⟩
    · obtain ⟨w, hw, hsource⟩ := ih h
      exact ⟨w, List.mem_cons_of_mem _ (List.mem_cons_of_mem _ hw), hsource⟩
  | case5 placed rest hsaid =>
    obtain ⟨w, hw, rfl⟩ := List.mem_map.1 h
    exact ⟨w, List.mem_cons_of_mem _ hw, rfl⟩
  | case6 => cases h

theorem pairwise_of_source {parts : List Part} {source : Span}
    (h : ∀ part ∈ parts, part.source = source) : parts.Pairwise Part.FollowedBy :=
  List.pairwise_of_forall_mem_list fun a ha b hb => .inl ((h a ha).trans (h b hb).symm)

/-- **The parts come in the order of their words.** -/
theorem pairwise_readParts (searcher : Searcher) {placed : List PlacedWord}
    (hordered : Ordered placed) : (readParts searcher placed).Pairwise Part.FollowedBy := by
  have hlater : ∀ {w : PlacedWord} {rest : List PlacedWord} {a b : Part},
      (∀ other ∈ rest, w.span.stop ≤ other.span.start) → a.source = w.span →
      b ∈ readParts searcher rest → a.FollowedBy b := by
    intro w rest a b hrest ha hb
    obtain ⟨other, hother, hsource⟩ := exists_source_of_mem_readParts hb
    refine .inr ?_
    rw [ha, hsource]
    exact hrest other hother
  fun_induction readParts searcher placed with
  | case1 => exact .nil
  | case2 placed rest said hsaid ih =>
    obtain ⟨hrest, hordered⟩ := List.pairwise_cons.1 hordered
    exact List.pairwise_append.2 ⟨pairwise_of_source fun _ => source_of_mem_items, ih hordered,
      fun a ha b hb => hlater hrest (source_of_mem_items ha) hb⟩
  | case3 => exact .nil
  | case4 placed said role hsaid value rest ih =>
    obtain ⟨hplaced, hordered⟩ := List.pairwise_cons.1 hordered
    obtain ⟨hvalue, hordered⟩ := List.pairwise_cons.1 hordered
    have hbehind := fun other hother => hplaced other (List.mem_cons_of_mem value hother)
    have hnext := hplaced value (List.mem_cons_self ..)
    have hrole : (role.parts placed.span value).Pairwise Part.FollowedBy := by
      cases role with
      | pattern => exact List.pairwise_singleton _ _
      | option flag => exact List.pairwise_pair.2 (.inr hnext)
    refine List.pairwise_append.2 ⟨pairwise_of_source fun _ => source_of_mem_items,
      List.pairwise_append.2 ⟨hrole, ih hordered, ?_⟩, ?_⟩
    · intro a ha b hb
      rcases source_of_mem_role ha with hsource | hsource
      · exact hlater hbehind hsource hb
      · exact hlater hvalue hsource hb
    · intro a ha b hb
      have hsource := source_of_mem_items ha
      rcases List.mem_append.1 hb with hb | hb
      · rcases source_of_mem_role hb with hb | hb
        · exact .inl (hsource.trans hb.symm)
        · refine .inr ?_
          rw [hsource, hb]
          exact hnext
      · exact hlater hbehind hsource hb
  | case5 placed rest hsaid =>
    exact List.pairwise_map.2 ((List.pairwise_cons.1 hordered).2.imp .inr)
  | case6 => exact .nil

theorem pairwise_inPlace (place : Place) {parts : List Part}
    (h : parts.Pairwise Part.FollowedBy) : (inPlace place parts).Pairwise Part.Precedes := by
  have hplace : ∀ part ∈ inPlace place parts, part.place = place := fun part hpart =>
    of_decide_eq_true (List.mem_filter.1 hpart).2
  refine List.Pairwise.imp_of_mem ?_ (h.sublist List.filter_sublist)
  intro a b ha hb hfollowed
  exact .inr ⟨(hplace a ha).trans (hplace b hb).symm, hfollowed⟩

/-- Parts that are put by their places stand in their order. -/
theorem pairwise_arrange {parts : List Part} (h : parts.Pairwise Part.FollowedBy) :
    (arrange parts).Pairwise Part.Precedes := by
  have hrank : ∀ {place part}, part ∈ inPlace place parts → part.place.rank = place.rank := by
    intro place part hpart
    rw [of_decide_eq_true (List.mem_filter.1 hpart).2]
  refine List.pairwise_append.2 ⟨pairwise_inPlace _ h, List.pairwise_append.2
    ⟨pairwise_inPlace _ h, pairwise_inPlace _ h, ?_⟩, ?_⟩
  · intro a ha b hb
    refine .inl ?_
    rw [hrank ha, hrank hb]
    decide
  · intro a ha b hb
    refine .inl ?_
    rcases List.mem_append.1 hb with hb | hb
    · rw [hrank ha, hrank hb]
      decide
    · rw [hrank ha, hrank hb]
      decide

theorem mem_of_mem_arrange {parts : List Part} {part : Part} (h : part ∈ arrange parts) :
    part ∈ parts := by
  rw [arrange, List.mem_append, List.mem_append] at h
  rcases h with h | h | h
  · exact (List.mem_filter.1 h).1
  · exact (List.mem_filter.1 h).1
  · exact (List.mem_filter.1 h).1

theorem pairwise_grepParts (body : List Char) : (grepParts body).Pairwise Part.Precedes := by
  unfold grepParts
  split
  · exact .nil
  · rename_i name args hwords
    split
    · exact .nil
    · have hordered := pairwise_wordsAt body
      rw [hwords] at hordered
      exact pairwise_arrange (pairwise_readParts _ (List.pairwise_cons.1 hordered).2)

theorem exists_source_of_mem_grepParts {body : List Char} {part : Part}
    (h : part ∈ grepParts body) : ∃ w ∈ wordsAt body, part.source = w.span := by
  unfold grepParts at h
  split at h
  · cases h
  · rename_i name args hwords
    split at h
    · cases h
    · obtain ⟨w, hw, hsource⟩ := exists_source_of_mem_readParts (mem_of_mem_arrange h)
      rw [hwords]
      exact ⟨w, List.mem_cons_of_mem _ hw, hsource⟩

/-! ## Searches of file names -/

/-- The criteria of a search of file names, each with the word that gave it. The kind comes with the
option in front of it. -/
structure PlacedCriteria where
  name : Option PlacedWord
  path : Option PlacedWord
  kind : Option (PlacedWord × PlacedWord)
  deriving DecidableEq, Repr

namespace PlacedCriteria

def empty : PlacedCriteria := ⟨none, none, none⟩

/-- The criteria with those that further words add. -/
def read (criteria : PlacedCriteria) : List PlacedWord → PlacedCriteria
  | [] => criteria
  | placed :: rest =>
    match Criterion.ofWord placed.word, rest with
    | .name, value :: rest => read { criteria with name := some value } rest
    | .kind, value :: rest => read { criteria with kind := some (placed, value) } rest
    | .depth, _ :: rest => read criteria rest
    | .path, rest => read { criteria with path := some placed } rest
    | _, _ => criteria

/-- The criteria without their places. -/
def forget (criteria : PlacedCriteria) : Criteria :=
  ⟨criteria.name.map PlacedWord.word, criteria.path.map PlacedWord.word,
    criteria.kind.map fun kind => kind.2.word.value⟩

/-- The option for a kind of file, if it is one of those that the compact form knows. -/
def kindParts (criteria : PlacedCriteria) : List Part :=
  match criteria.kind with
  | none => []
  | some (option, value) =>
    if isOneOf ["f", "d"] value.word.value then
      [⟨.option, option.span, "-t".toList⟩, ⟨.option, value.span, value.word.value⟩]
    else []

def parts (criteria : PlacedCriteria) : List Part :=
  criteria.name.toList.map (fun placed => ⟨.subject, placed.span, placed.word.raw⟩) ++
    (criteria.path.toList.map (fun placed => ⟨.positional, placed.span, placed.word.raw⟩) ++
      criteria.kindParts)

/-- Reading the criteria with their places is reading them. -/
theorem forget_read {criteria : PlacedCriteria} {placed : List PlacedWord} {result : Criteria}
    (h : criteria.forget.read? (placed.map PlacedWord.word) = some result) :
    (criteria.read placed).forget = result := by
  fun_induction read criteria placed with
  | case1 => exact Option.some.inj h
  | case2 criteria placed value rest hword ih =>
    simp only [List.map_cons, Criteria.read?, hword] at h
    exact ih h
  | case3 criteria placed value rest hword ih =>
    simp only [List.map_cons, Criteria.read?, hword] at h
    exact ih h
  | case4 criteria placed value rest hword ih =>
    simp only [List.map_cons, Criteria.read?, hword] at h
    exact ih h
  | case5 criteria placed rest hword ih =>
    simp only [List.map_cons, Criteria.read?, hword, Option.ite_none_left_eq_some] at h
    exact ih h.2
  | case6 criteria placed rest hpath hname hkind hdepth =>
    -- a criterion without its value: only a last word that asks for a name is passed over
    rw [List.map_cons, Criteria.read?.eq_def] at h
    dsimp only at h
    split at h
    · exact Option.some.inj h
    · rename_i hword hrest
      obtain ⟨value, rest, rfl, -, -⟩ := List.map_eq_cons_iff.1 hrest
      exact (hname value rest hword rfl).elim
    · rename_i hword hrest
      obtain ⟨value, rest, rfl, -, -⟩ := List.map_eq_cons_iff.1 hrest
      exact (hkind value rest hword rfl).elim
    · rename_i hword hrest
      obtain ⟨value, rest, rfl, -, -⟩ := List.map_eq_cons_iff.1 hrest
      exact (hdepth value rest hword rfl).elim
    · rename_i hword
      exact (hpath hword).elim
    · cases h

/-- Everything comes from words of the list, and a kind from the word behind its option. -/
structure From (placed : List PlacedWord) (criteria : PlacedCriteria) : Prop where
  name : ∀ w ∈ criteria.name, w ∈ placed
  path : ∀ w ∈ criteria.path, w ∈ placed
  kind : ∀ kind ∈ criteria.kind,
    kind.1 ∈ placed ∧ kind.2 ∈ placed ∧ kind.1.span.stop ≤ kind.2.span.start

theorem from_empty (placed : List PlacedWord) : empty.From placed :=
  ⟨fun _ h => (Option.not_mem_none _ h).elim, fun _ h => (Option.not_mem_none _ h).elim,
    fun _ h => (Option.not_mem_none _ h).elim⟩

/-- What is read comes from the words read. -/
theorem From.read {placed : List PlacedWord} {criteria : PlacedCriteria} (h : criteria.From placed)
    {args : List PlacedWord} (hordered : Ordered args) (hargs : ∀ w ∈ args, w ∈ placed) :
    (criteria.read args).From placed := by
  fun_induction PlacedCriteria.read criteria args with
  | case1 => exact h
  | case2 criteria word value rest hword ih =>
    rw [Ordered, List.pairwise_cons, List.pairwise_cons] at hordered
    rw [List.forall_mem_cons, List.forall_mem_cons] at hargs
    refine ih ⟨?_, h.path, h.kind⟩ hordered.2.2 hargs.2.2
    intro w hw
    obtain rfl := Option.some.inj hw
    exact hargs.2.1
  | case3 criteria word value rest hword ih =>
    rw [Ordered, List.pairwise_cons, List.pairwise_cons] at hordered
    rw [List.forall_mem_cons, List.forall_mem_cons] at hargs
    refine ih ⟨h.name, h.path, ?_⟩ hordered.2.2 hargs.2.2
    intro kind hkind
    obtain rfl := Option.some.inj hkind
    exact ⟨hargs.1, hargs.2.1, hordered.1 value (List.mem_cons_self ..)⟩
  | case4 criteria word value rest hword ih =>
    rw [Ordered, List.pairwise_cons, List.pairwise_cons] at hordered
    rw [List.forall_mem_cons, List.forall_mem_cons] at hargs
    exact ih h hordered.2.2 hargs.2.2
  | case5 criteria word rest hword ih =>
    rw [Ordered, List.pairwise_cons] at hordered
    rw [List.forall_mem_cons] at hargs
    refine ih ⟨h.name, ?_, h.kind⟩ hordered.2 hargs.2
    intro w hw
    obtain rfl := Option.some.inj hw
    exact hargs.1
  | case6 => exact h

theorem pairwise_kindParts {placed : List PlacedWord} {criteria : PlacedCriteria}
    (h : criteria.From placed) : criteria.kindParts.Pairwise Part.Precedes := by
  unfold kindParts
  split
  · exact .nil
  · rename_i option value hkind
    split
    · exact List.pairwise_pair.2 (.inr ⟨rfl, .inr (h.kind _ hkind).2.2⟩)
    · exact .nil

theorem place_of_mem_kindParts {criteria : PlacedCriteria} {part : Part}
    (h : part ∈ criteria.kindParts) : part.place = .option := by
  unfold kindParts at h
  split at h
  · cases h
  · split at h
    · rw [List.mem_pair] at h
      rcases h with rfl | rfl
      · rfl
      · rfl
    · cases h

/-- The parts of criteria stand in their order. -/
theorem pairwise_parts {placed : List PlacedWord} {criteria : PlacedCriteria}
    (h : criteria.From placed) : criteria.parts.Pairwise Part.Precedes := by
  have hone : ∀ (found : Option PlacedWord) (f : PlacedWord → Part),
      (found.toList.map f).Pairwise Part.Precedes := by
    intro found f
    cases found with
    | none => exact .nil
    | some w => exact List.pairwise_singleton _ _
  refine List.pairwise_append.2 ⟨hone _ _, List.pairwise_append.2
    ⟨hone _ _, pairwise_kindParts h, ?_⟩, ?_⟩
  · intro a ha b hb
    obtain ⟨w, -, rfl⟩ := List.mem_map.1 ha
    refine .inl ?_
    rw [place_of_mem_kindParts hb]
    exact Nat.one_lt_two
  · intro a ha b hb
    obtain ⟨w, -, rfl⟩ := List.mem_map.1 ha
    refine .inl ?_
    rcases List.mem_append.1 hb with hb | hb
    · obtain ⟨v, -, rfl⟩ := List.mem_map.1 hb
      exact Nat.zero_lt_one
    · rw [place_of_mem_kindParts hb]
      exact Nat.zero_lt_two

theorem exists_source_of_mem_parts {placed : List PlacedWord} {criteria : PlacedCriteria}
    (h : criteria.From placed) {part : Part} (hpart : part ∈ criteria.parts) :
    ∃ w ∈ placed, part.source = w.span := by
  rw [parts, List.mem_append, List.mem_append] at hpart
  rcases hpart with hpart | hpart | hpart
  · obtain ⟨w, hw, rfl⟩ := List.mem_map.1 hpart
    exact ⟨w, h.name w (Option.mem_toList.1 hw), rfl⟩
  · obtain ⟨w, hw, rfl⟩ := List.mem_map.1 hpart
    exact ⟨w, h.path w (Option.mem_toList.1 hw), rfl⟩
  · unfold kindParts at hpart
    split at hpart
    · cases hpart
    · rename_i option value hkind
      obtain ⟨hoption, hvalue, -⟩ := h.kind _ hkind
      split at hpart
      · rw [List.mem_pair] at hpart
        rcases hpart with rfl | rfl
        · exact ⟨option, hoption, rfl⟩
        · exact ⟨value, hvalue, rfl⟩
      · cases hpart

theorem text_kindParts (criteria : PlacedCriteria) :
    criteria.kindParts.map Part.text = criteria.forget.kindOption := by
  cases criteria with
  | mk name path kind =>
    cases kind with
    | none => rfl
    | some kind =>
      rw [kindParts, forget, Criteria.kindOption]
      dsimp only [Option.map_some]
      split
      · rfl
      · rfl

/-- The parts make up the compact command. -/
theorem text_parts {criteria : PlacedCriteria} {texts : List (List Char)}
    (h : criteria.forget.texts? = some texts) :
    texts = "rtk".toList :: "find".toList :: criteria.parts.map Part.text := by
  obtain ⟨name, hname, rfl⟩ := Option.map_eq_some_iff.1 h
  obtain ⟨w, hw, rfl⟩ := Option.map_eq_some_iff.1 hname
  rw [parts, List.map_append, List.map_append, text_kindParts, hw]
  cases hpath : criteria.path with
  | none =>
    have : criteria.forget.path = none := by rw [forget, hpath]; rfl
    rw [this]
    rfl
  | some v =>
    have : criteria.forget.path = some v.word := by rw [forget, hpath]; rfl
    rw [this]
    rfl

end PlacedCriteria

/-- The parts of a search of file names, in the order of the compact command. -/
def findParts (body : List Char) : List Part :=
  (PlacedCriteria.empty.read (wordsAt body).tail).parts

theorem from_findParts (body : List Char) :
    (PlacedCriteria.empty.read (wordsAt body).tail).From (wordsAt body) :=
  (PlacedCriteria.from_empty _).read ((pairwise_wordsAt body).sublist (List.tail_sublist _))
    fun _ hw => List.mem_of_mem_tail hw

theorem pairwise_findParts (body : List Char) : (findParts body).Pairwise Part.Precedes :=
  PlacedCriteria.pairwise_parts (from_findParts body)

theorem exists_source_of_mem_findParts {body : List Char} {part : Part}
    (h : part ∈ findParts body) : ∃ w ∈ wordsAt body, part.source = w.span :=
  PlacedCriteria.exists_source_of_mem_parts (from_findParts body) h

/-- **The parts of a search of file names make up its compact form.** -/
theorem joinBlank_findParts {body new : List Char} (hfree : findOperator body = none)
    (h : translateFind? body = some new) :
    new = joinBlank ("rtk".toList :: "find".toList :: (findParts body).map Part.text) := by
  rw [translateFind?, splitAtOperator_of_eq_none hfree] at h
  obtain ⟨criteria, hcriteria, h⟩ := Option.bind_eq_some_iff.1 h
  obtain ⟨texts, htexts, rfl⟩ := Option.map_eq_some_iff.1 h
  rw [← map_word_wordsAt] at hcriteria
  rw [List.append_nil, findParts]
  cases hwords : wordsAt body with
  | nil =>
    rw [hwords] at hcriteria
    cases hcriteria
  | cons program args =>
    rw [hwords, List.map_cons, Criteria.ofWords?] at hcriteria
    split at hcriteria
    · cases hcriteria
    · have hempty : Criteria.empty = PlacedCriteria.empty.forget := rfl
      rw [hempty] at hcriteria
      obtain rfl := PlacedCriteria.forget_read hcriteria
      exact congrArg joinBlank (PlacedCriteria.text_parts htexts)

/-! ## The first lines of a file -/

/-- The parts of a read of the first lines of a file, in the order of the compact command. The file
is what the count is followed by, to the end of the command. -/
def headParts (body : List Char) : List Part :=
  match headCount? body with
  | none => []
  | some (count, rest) =>
    match headTarget? rest with
    | none => []
    | some target =>
      let behind := body.length - rest.length
      [⟨.subject, ⟨behind, body.length⟩, target⟩, ⟨.option, ⟨0, behind⟩, "--max-lines".toList⟩,
        ⟨.option, ⟨0, behind⟩, count⟩]

theorem pairwise_headParts (body : List Char) : (headParts body).Pairwise Part.Precedes := by
  unfold headParts
  split
  · exact .nil
  · split
    · exact .nil
    · refine List.pairwise_cons.2 ⟨?_, List.pairwise_pair.2 (.inr ⟨rfl, .inl rfl⟩)⟩
      rw [List.forall_mem_cons, List.forall_mem_singleton]
      exact ⟨.inl Nat.zero_lt_two, .inl Nat.zero_lt_two⟩

theorem start_le_stop_of_mem_headParts {body : List Char} {part : Part}
    (h : part ∈ headParts body) : part.source.start ≤ part.source.stop := by
  unfold headParts at h
  split at h
  · cases h
  · split at h
    · cases h
    · rw [List.mem_cons, List.mem_pair] at h
      rcases h with rfl | rfl | rfl
      · exact Nat.sub_le _ _
      · exact Nat.zero_le _
      · exact Nat.zero_le _

/-- **The parts of a read of the first lines make up its compact form.** The front of the command,
up to the count, is plain. -/
theorem headParts_eq {body new : List Char} (hfree : findOperator body = none)
    (h : translateHead? body = some new) :
    ∃ front rest target count, body = front ++ rest ∧ PlainText front ∧ '#' ∉ front ∧
      headParts body =
        [⟨.subject, ⟨front.length, body.length⟩, target⟩,
          ⟨.option, ⟨0, front.length⟩, "--max-lines".toList⟩,
          ⟨.option, ⟨0, front.length⟩, count⟩] ∧
      new = joinBlank ("rtk".toList :: "read".toList :: (headParts body).map Part.text) := by
  rw [translateHead?, splitAtOperator_of_eq_none hfree] at h
  obtain ⟨⟨count, rest⟩, hcount, h⟩ := Option.bind_eq_some_iff.1 h
  obtain ⟨target, htarget, rfl⟩ := Option.map_eq_some_iff.1 h
  obtain ⟨front, hbody, hfront, -, -, hsign, -⟩ := headCount?_spec hcount
  have hbehind : body.length - rest.length = front.length := by
    rw [hbody, List.length_append, Nat.add_sub_cancel]
  have hparts : headParts body =
      [⟨.subject, ⟨front.length, body.length⟩, target⟩,
        ⟨.option, ⟨0, front.length⟩, "--max-lines".toList⟩,
        ⟨.option, ⟨0, front.length⟩, count⟩] := by
    rw [headParts, hcount]
    dsimp only
    rw [htarget]
    dsimp only
    rw [hbehind]
  refine ⟨front, rest, target, count, hbody, hfront.plain, hsign, hparts, ?_⟩
  rw [hparts, List.append_nil]
  rfl

end CompactShell.Search
