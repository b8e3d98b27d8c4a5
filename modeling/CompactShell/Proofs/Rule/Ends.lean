import CompactShell.Proofs.Rule.Changes
import CompactShell.Proofs.Search.Parts
import CompactShell.Rewriter

/-!
# Simple commands that end without an operator

What stands behind the first operator of a command is kept as it is. An ampersand that sends a
command to the background ends a simple command too, and so does the number sign of a comment, but
neither is an operator. To a rule they are characters of words, and the three rules that put the
words in a new order move words across them.

`moved_behind_end_iff` says when: a word from in front of the end comes to stand behind it, exactly
if its place in the compact command is a later one than the place of the word with the end. The
count of lines of a file is always moved (`count_moved_behind_end`). A search of file names may drop
the word with the end. The words behind it are then words of the same simple command, and come to
stand in front of those that have a later place.
-/

namespace CompactShell.Rule

open Search Shell Text

/-- The action puts the words of a command in a new order. -/
def Action.reorders : Action → Bool
  | .grep => true
  | .find => true
  | .head => true
  | _ => false

example : (table.filter (·.action.reorders)).map Rule.label =
    ["grep/rg", "find", "head → rtk read"] := by
  decide

/-- The words that the compact command starts with. -/
def Action.tool : Action → List (List Char)
  | .grep => ["rtk".toList, "grep".toList]
  | .find => ["rtk".toList, "find".toList]
  | .head => ["rtk".toList, "read".toList]
  | _ => ["rtk".toList]

/-- What stands behind the tool's words, with the places that it comes from. -/
def Action.parts : Action → List Char → List Part
  | .grep => grepParts
  | .find => findParts
  | .head => headParts
  | _ => fun _ => []

/-- **The parts make up the compact command.** -/
theorem Action.apply_eq_joinBlank {action : Action} (hreorders : action.reorders = true)
    {body : List Char} (hfree : findOperator body = none) (hne : action.apply body ≠ body) :
    action.apply body = joinBlank (action.tool ++ (action.parts body).map Part.text) := by
  cases action with
  | wrap => cases hreorders
  | replace phrases stop extent text => cases hreorders
  | grep => exact joinBlank_grepParts hfree (eq_some_of_getD_ne hne)
  | find => exact joinBlank_findParts hfree (eq_some_of_getD_ne hne)
  | head =>
    obtain ⟨-, -, -, -, -, -, -, -, hnew⟩ := headParts_eq hfree (eq_some_of_getD_ne hne)
    exact hnew

theorem Action.pairwise_parts (action : Action) (body : List Char) :
    (action.parts body).Pairwise Part.Precedes := by
  cases action with
  | wrap => exact .nil
  | replace phrases stop extent text => exact .nil
  | grep => exact pairwise_grepParts body
  | find => exact pairwise_findParts body
  | head => exact pairwise_headParts body

theorem Action.start_le_stop_of_mem_parts {action : Action} {body : List Char} {part : Part}
    (h : part ∈ action.parts body) : part.source.start ≤ part.source.stop := by
  have hword : (∃ w ∈ wordsAt body, part.source = w.span) →
      part.source.start ≤ part.source.stop := by
    rintro ⟨w, -, hsource⟩
    rw [hsource]
    exact Nat.le_add_right _ _
  cases action with
  | wrap => cases h
  | replace phrases stop extent text => cases h
  | grep => exact hword (exists_source_of_mem_grepParts h)
  | find => exact hword (exists_source_of_mem_findParts h)
  | head => exact start_le_stop_of_mem_headParts h

/-- **When words come to stand behind the end of a simple command.** The end is a character of a
word. If the word is kept, no part from in front of the end is moved behind it, exactly if all such
parts have a place that is no later than the place of the word. The same holds of each part from
behind the end, whether or not the word with the end is kept. -/
theorem moved_behind_end_iff {rule : Rule} (hreorders : rule.action.reorders = true)
    {body new : List Char} (hfree : hasOperator body = false) (h : rule.rewrite? body = some new)
    {p : Nat} (hp : commandEnd? body = some p) :
    (∃ w ∈ wordsAt body, w.span.Holds p) ∧
      new = joinBlank (rule.action.tool ++ (rule.action.parts body).map Part.text) ∧
      ∀ before part after, rule.action.parts body = before ++ part :: after →
        p < part.source.stop →
        ((∀ other ∈ after, p < other.source.stop) ↔
          ∀ other ∈ rule.action.parts body,
            other.source.stop ≤ p → other.place.rank ≤ part.place.rank) := by
  obtain ⟨-, hchanges, rfl⟩ := rewrite?_eq_some_iff_apply.1 h
  refine ⟨exists_word_of_commandEnd? hp,
    Action.apply_eq_joinBlank hreorders (hasOperator_eq_false_iff.1 hfree) hchanges, ?_⟩
  intro before part after hsplit hstop
  exact forall_behind_iff (rule.action.pairwise_parts body)
    (fun _ => Action.start_le_stop_of_mem_parts) hsplit hstop

/-- An option from in front of the ampersand comes to stand behind it. -/
theorem option_moved_behind_ampersand :
    hasOperator "grep -n foo &".toList = false ∧ commandEnd? "grep -n foo &".toList = some 12 ∧
      (Rewriter.ofRules table [] false).rewrite? "grep -n foo &".toList =
        some ⟨"rtk grep foo & -n".toList, ["grep/rg"]⟩ ∧
      commandEnd? "rtk grep foo & -n".toList = some 13 ∧
      (wordsAt "grep -n foo &".toList).map (fun w => (w.start, w.word.raw)) =
        [(0, "grep".toList), (5, "-n".toList), (8, "foo".toList), (12, "&".toList)] ∧
      (wordsAt "rtk grep foo & -n".toList).map (fun w => (w.start, w.word.raw)) =
        [(0, "rtk".toList), (4, "grep".toList), (9, "foo".toList), (13, "&".toList),
          (15, "-n".toList)] := by
  decide +kernel

/-- An option that is behind the ampersand already stays there, and nothing else comes to it. -/
theorem moved_behind_end_iff_option :
    "rtk grep foo & -n".toList =
        joinBlank ("rtk".toList :: "grep".toList ::
          (grepParts "grep foo & -n".toList).map Part.text) ∧
      ∀ other ∈ ([⟨.option, ⟨11, 13⟩, "-n".toList⟩] : List Part), 9 < other.source.stop := by
  have hfree : hasOperator "grep foo & -n".toList = false := by decide
  have hrewrite : Rule.rewrite? ⟨"grep/rg", .phrase [["rg"], ["grep"]] .space, .grep⟩
      "grep foo & -n".toList = some "rtk grep foo & -n".toList := by decide +kernel
  have hend : commandEnd? "grep foo & -n".toList = some 9 := by decide
  obtain ⟨-, hnew, hiff⟩ := moved_behind_end_iff rfl hfree hrewrite hend
  refine ⟨hnew, (hiff [⟨.positional, ⟨5, 8⟩, "foo".toList⟩] ⟨.positional, ⟨9, 10⟩, "&".toList⟩
    [⟨.option, ⟨11, 13⟩, "-n".toList⟩] (by decide +kernel) (by decide)).2 ?_⟩
  decide +kernel

/-- A word that is dropped takes the end along, and what stood behind it comes to the front. -/
example : (Rewriter.ofRules table [] false).rewrite? "find . -maxdepth 1& -name x".toList =
    some ⟨"rtk find x .".toList, ["find"]⟩ := by
  decide +kernel

/-- **A count of lines is always moved behind the end**, because the end is in what is taken for the
file's name. -/
theorem count_moved_behind_end {rule : Rule} (haction : rule.action = .head)
    {body new : List Char} (hfree : hasOperator body = false) (h : rule.rewrite? body = some new)
    {p : Nat} (hp : commandEnd? body = some p) :
    ∃ target flag count, rule.action.parts body = [target, flag, count] ∧
      target.source.Holds p ∧ flag.source.stop ≤ p ∧ count.source.stop ≤ p := by
  obtain ⟨-, hchanges, -⟩ := rewrite?_eq_some_iff_apply.1 h
  rw [haction] at hchanges ⊢
  obtain ⟨front, rest, target, count, hbody, hplain, hsign, hparts, -⟩ :=
    headParts_eq (hasOperator_eq_false_iff.1 hfree) (eq_some_of_getD_ne hchanges)
  obtain ⟨before, c, after, hsplit, rfl, -, hc⟩ := split_of_commandEndFrom hp
  have hnot : c ∉ front := by
    rcases hc with rfl | rfl
    · exact fun hmem => ne_of_isPlain (hplain _ hmem) (by decide) rfl
    · exact hsign
  have hfront : front.length ≤ before.length := by
    by_contra hlt
    refine hnot ?_
    have hget : body[before.length]? = some c := by
      rw [hsplit, List.getElem?_append_right (Nat.le_refl _), Nat.sub_self]
      rfl
    rw [hbody, List.getElem?_append_left (Nat.not_le.1 hlt)] at hget
    exact List.mem_of_getElem? hget
  have hstop : before.length < body.length := by
    rw [hsplit, List.length_append, List.length_cons]
    omega
  exact ⟨_, _, _, hparts, ⟨hfront, hstop⟩, hfront, hfront⟩

end CompactShell.Rule
