import CompactShell.Proofs.Rewriter.Operators
import CompactShell.Proofs.Rewriter.Selection
import CompactShell.Proofs.Rule.Seams
import Mathlib.Data.List.Nodup

/-!
# Rewriting through operators

Where the gate is open, a command is to be rewritten as its first simple command is, with the rest
of the line behind it. Three of the rules cut the line in front of the operator. The others look at
all of it, and what they look at may stand behind the operator: the white space that asks for an
argument, or the subcommand. So a command may be rewritten although its simple command would not be
by itself. Apart from that, and from a word that is dropped in front of white space only, the two
are rewritten alike (`rewritten_through_operator`).
-/

namespace CompactShell

open Rule Shell Text

/-! ## The simple command as a line -/

theorem getLast?_trimEnd (text : List Char) :
    ∀ c ∈ (trimEnd text).getLast?, isSpace c = false := by
  intro c hc
  rw [trimEnd, List.getLast?_reverse] at hc
  exact head?_dropWhile c hc

/-- A line without a lead starts with neither white space nor an assignment. -/
theorem leadOf_eq_nil_iff {line : List Char} :
    leadOf line = [] ↔ (∀ c ∈ line.head?, isSpace c = false) ∧ assignment? line = none := by
  constructor
  · intro h
    rw [leadOf, List.append_eq_nil_iff] at h
    obtain ⟨hindent, hassignments⟩ := h
    have hhead : ∀ c ∈ line.head?, isSpace c = false := by
      intro c hc
      obtain ⟨rest, rfl⟩ := List.head?_eq_some_iff.1 hc
      rw [List.takeWhile_cons] at hindent
      split at hindent
      · cases hindent
      · rename_i hspace
        simpa using hspace
    have htrim : trimStart line = line := by
      have hline := List.takeWhile_append_dropWhile (p := isSpace) (l := line)
      rwa [hindent, List.nil_append] at hline
    have hbody := splitAssignments_append (trimStart line)
    rw [hassignments, List.nil_append, htrim] at hbody
    have hnone := (splitAssignments_spec (trimStart line)).2
    rw [htrim, hbody] at hnone
    exact ⟨hhead, hnone⟩
  · rintro ⟨hhead, hnone⟩
    have hnothing : ∀ c ∈ ([] : List Char), isSpace c = true := by simp
    obtain ⟨hindent, htrim⟩ := indent_append hnothing hhead
    rw [List.nil_append] at hindent htrim
    have hsplit := splitAssignments_of_eq_none hnone
    rw [leadOf, hindent, htrim, hsplit]
    rfl

theorem bodyOf_of_leadOf_eq_nil {line : List Char} (h : leadOf line = []) : bodyOf line = line := by
  have hline := leadOf_append_bodyOf line
  rwa [h, List.nil_append] at hline

theorem trimStart_of_leadOf_eq_nil {line : List Char} (h : leadOf line = []) :
    trimStart line = line := by
  have hline := trimStart_eq line
  rw [leadOf, List.append_eq_nil_iff] at h
  rw [hline, h.2, List.nil_append, bodyOf_of_leadOf_eq_nil]
  rw [leadOf, h.1, h.2, List.append_nil]

/-- An assignment ends in a blank. -/
theorem exists_getLast?_of_isAssignment {a : List Char} (h : IsAssignment a) :
    ∃ c, a.getLast? = some c ∧ isBlank c = true := by
  obtain ⟨first, name, value, blanks, rfl, -, -, -, hne, hblanks⟩ := h
  obtain ⟨init, b, rfl⟩ := (List.eq_nil_or_concat' blanks).resolve_left hne
  refine ⟨b, ?_, hblanks b (by simp)⟩
  rw [← List.append_assoc value, List.getLast?_append, List.getLast?_cons, List.getLast?_concat]
  rfl

/-- A line that has no lead has none when its end is cut off, white space included. -/
theorem leadOf_eq_nil_of_append {part more : List Char} (h : leadOf (part ++ more) = [])
    (hlast : ∀ c ∈ part.getLast?, isSpace c = false) : leadOf part = [] := by
  obtain ⟨hhead, hnone⟩ := leadOf_eq_nil_iff.1 h
  refine leadOf_eq_nil_iff.2 ⟨?_, ?_⟩
  · intro c hc
    obtain ⟨rest, rfl⟩ := List.head?_eq_some_iff.1 hc
    exact hhead c rfl
  · rw [Option.eq_none_iff_forall_ne_some]
    rintro ⟨a, rest⟩ hsome
    obtain ⟨ha, rfl, hblank⟩ := assignment?_eq_some_iff.1 hsome
    have hrest : rest ≠ [] := by
      rintro rfl
      obtain ⟨c, hc, hcblank⟩ := exists_getLast?_of_isAssignment ha
      rw [List.append_nil] at hlast
      have hcspace := hlast c hc
      rw [isSpace_of_isBlank hcblank] at hcspace
      cases hcspace
    have hread : assignment? (a ++ (rest ++ more)) = some (a, rest ++ more) := by
      refine ha.read ?_
      obtain ⟨c, rest, rfl⟩ := List.exists_cons_of_ne_nil hrest
      exact fun d hd => hblank d hd
    rw [← List.append_assoc, hnone] at hread
    cases hread

theorem startsTool_append {text : List Char} (h : startsTool text = true) (more : List Char) :
    startsTool (text ++ more) = true := by
  unfold startsTool at h
  split at h
  · exact h
  · cases h

theorem holdsToolPath_append {text : List Char} (h : holdsToolPath text = true)
    (more : List Char) : holdsToolPath (text ++ more) = true := by
  induction text with
  | nil => cases h
  | cons c text ih =>
    rw [holdsToolPath, Bool.or_eq_true, Bool.and_eq_true] at h
    rw [List.cons_append, holdsToolPath, Bool.or_eq_true, Bool.and_eq_true]
    exact h.imp (fun h => ⟨h.1, startsTool_append h.2 more⟩) ih

/-- What keeps rules away from the front of a line keeps them away from the line. -/
theorem not_isTaken_of_append {part more : List Char} (hpart : leadOf part = [])
    (hwhole : leadOf (part ++ more) = []) (h : Rewriter.isTaken (part ++ more) = false) :
    Rewriter.isTaken part = false := by
  rw [Rewriter.isTaken, bodyOf_of_leadOf_eq_nil hwhole, trimStart_of_leadOf_eq_nil hwhole] at h
  rw [Rewriter.isTaken, bodyOf_of_leadOf_eq_nil hpart, trimStart_of_leadOf_eq_nil hpart]
  have htool : invokesTool part = true → invokesTool (part ++ more) = true := by
    intro hpart
    rw [invokesTool, Bool.or_eq_true] at hpart ⊢
    exact hpart.imp (startsTool_append · more) (holdsToolPath_append · more)
  have hheredoc : holdsHeredoc part = true → holdsHeredoc (part ++ more) = true := by
    intro hpart
    rw [holdsHeredoc, holds_iff] at hpart ⊢
    exact hpart.trans (List.prefix_append part more).isInfix
  rw [Bool.eq_false_iff] at h ⊢
  intro hpart
  refine h ?_
  rw [Bool.or_eq_true, Bool.or_eq_true] at hpart ⊢
  exact hpart.imp (Or.imp htool hheredoc) htool

/-- **A line with an operator is its simple command, the white space behind that, and a tail**,
where it starts with a letter. -/
theorem exists_isSeam {command : List Char} {i : Nat} (hi : findOperator command = some i)
    (hhead : ∃ c rest, command = c :: rest ∧ c.isAlpha = true) :
    ∃ part white tail, command = part ++ (white ++ tail) ∧
      splitAtOperator command = (part, ' ' :: tail) ∧
      command.drop (operatorStart command i) = tail ∧ IsSeam white tail ∧
      ∀ c ∈ part.getLast?, isSpace c = false := by
  obtain ⟨front, tail, hcut⟩ := exists_isCut hi
  obtain ⟨white, hfront, hwhite⟩ := trimEnd_spec front
  refine ⟨trimEnd front, white, tail, ?_, hcut.split, ?_, ⟨hwhite, ?_⟩, getLast?_trimEnd front⟩
  · rw [← List.append_assoc, ← hfront, hcut.append]
  · have hsplit := hcut.split
    rw [splitAtOperator, hi] at hsplit
    exact (List.cons.inj (Prod.mk.inj hsplit).2).2
  · obtain ⟨c, rest, rfl, hc⟩ := hcut.head
    by_cases hspecial : c ∈ specials
    · exact ⟨c, rest, rfl, .inl hspecial⟩
    · have hdigit := hc.resolve_right hspecial
      refine ⟨c, rest, rfl, .inr ⟨hdigit, ?_⟩⟩
      rintro rfl
      rw [List.append_nil] at hfront
      have hblank := hcut.digit fun d hd => Option.some.inj hd ▸ hspecial
      rcases List.eq_nil_or_concat' front with rfl | ⟨init, b, rfl⟩
      · -- the command would start with the digits of a descriptor
        obtain ⟨d, more, hcommand, halpha⟩ := hhead
        rw [← hcut.append, List.nil_append] at hcommand
        cases hcommand
        rw [not_isDigit_of_isAlpha halpha] at hdigit
        cases hdigit
      · have hlast := getLast?_trimEnd (init ++ [b]) b (by rw [← hfront]; simp)
        rw [isSpace_of_isBlank (hblank b (by simp))] at hlast
        cases hlast

namespace Rewriter

variable {rewriter : Rewriter}

theorem eq_of_label_eq {a b : Rule} (ha : a ∈ table) (hb : b ∈ table) (h : a.label = b.label) :
    a = b := by
  have hnodup : (table.map Rule.label).Nodup := by decide +kernel
  exact List.inj_on_of_nodup_map hnodup ha hb h

/-- With the gate open, a line without a lead is rewritten by its rules alone. -/
theorem rewrite?_of_leadOf_eq_nil (hgate : rewriter.throughOperators = true) {line : List Char}
    (hn : '\n' ∉ line) (hlead : leadOf line = []) :
    rewriter.rewrite? line =
      if isTaken line then none
      else (rewriter.rewriteBody? line).map fun (body, label) => ⟨body, [label]⟩ := by
  rw [rewrite?_of_not_mem hn, rewriteLine?_eq, hgate, hlead, bodyOf_of_leadOf_eq_nil hlead]
  split
  · rfl
  · rw [Bool.not_true, Bool.false_and, if_neg Bool.false_ne_true, Option.map_map]
    rfl

/-- The rule that rewrites a line, where the gate is open and there is no lead. -/
theorem OverTable.rewrite?_eq_some_iff (htable : rewriter.OverTable)
    (hgate : rewriter.throughOperators = true) {line : List Char} (hn : '\n' ∉ line)
    (hlead : leadOf line = []) (htaken : isTaken line = false) {rewrite : Rewrite} :
    rewriter.rewrite? line = some rewrite ↔
      ∃ rule ∈ rewriter.rules, rule.rewrite? line = some rewrite.command ∧
        rewrite.labels = [rule.label] := by
  obtain ⟨command, labels⟩ := rewrite
  rw [rewrite?_of_leadOf_eq_nil hgate hn hlead, htaken, if_neg Bool.false_ne_true,
    Option.map_eq_some_iff]
  constructor
  · rintro ⟨⟨new, label⟩, hnew, heq⟩
    cases heq
    obtain ⟨rule, hrule, hrewrite, rfl⟩ := htable.rewriteBody?_eq_some_iff.1 hnew
    exact ⟨rule, hrule, hrewrite, rfl⟩
  · rintro ⟨rule, hrule, hrewrite, rfl⟩
    exact ⟨_, htable.rewriteBody?_eq_some_iff.2 ⟨rule, hrule, hrewrite, rfl⟩, rfl⟩

/-- The label says which rule it was. -/
theorem OverTable.rewrite?_eq_some_label_iff (htable : rewriter.OverTable)
    (hgate : rewriter.throughOperators = true) {line : List Char} (hn : '\n' ∉ line)
    (hlead : leadOf line = []) (htaken : isTaken line = false) {rule : Rule}
    (hrule : rule ∈ rewriter.rules) {new : List Char} :
    rewriter.rewrite? line = some ⟨new, [rule.label]⟩ ↔ rule.rewrite? line = some new := by
  rw [htable.rewrite?_eq_some_iff hgate hn hlead htaken]
  constructor
  · rintro ⟨other, hother, hrewrite, hlabels⟩
    have hlabel := (List.cons.inj hlabels).1
    rwa [eq_of_label_eq (htable rule hrule) (htable other hother) hlabel]
  · exact fun hrewrite => ⟨rule, hrule, hrewrite, rfl⟩

/-- What rules are kept away from is not what they make of a line. -/
theorem ne_of_not_isTaken {line : List Char} (hlead : leadOf line = [])
    (htaken : isTaken line = false) (rest : List Char) : "rtk ".toList ++ rest ≠ line := by
  rintro rfl
  have hstarts : startsTool ("rtk ".toList ++ rest) = true := rfl
  have hinvokes : invokesTool ("rtk ".toList ++ rest) = true := by
    rw [invokesTool, hstarts, Bool.true_or]
  rw [isTaken, bodyOf_of_leadOf_eq_nil hlead, hinvokes, Bool.or_true] at htaken
  cases htaken

/-- A rule whose phrase may stand alone is about the simple command if it is about the line. -/
theorem accepts_part_of_edge {rule : Rule} (hrule : rule ∈ table) {part white tail : List Char}
    (hseam : IsSeam white tail) {phrases : List Phrase}
    (hguard : rule.guard = .phrase phrases .edge)
    (haccepts : rule.guard.accepts (part ++ (white ++ tail)) = true) :
    rule.guard.accepts part = true := by
  have hphrases := table_isSeparable rule hrule
  rw [isSeparable, hguard, Bool.and_eq_true] at hphrases
  rw [hguard] at haccepts ⊢
  exact Guard.accepts_of_edge hphrases.1 hseam haccepts

/-- **Through an operator, a command is rewritten as its simple command is**, with white space and
the rest of the line behind it, exactly if the rule that rewrites the command is about the simple
command by itself and drops no word that stands directly in front of the operator. A rule whose
phrase may stand alone always is about both. -/
theorem rewritten_through_operator (htable : rewriter.OverTable)
    (hgate : rewriter.throughOperators = true) {command : List Char} (hn : '\n' ∉ command)
    (hlead : leadOf command = []) {i : Nat} (hi : findOperator command = some i)
    (hcut : hasOperator (splitAtOperator command).1 = false) {rewrite : Rewrite}
    (h : rewriter.rewrite? command = some rewrite) :
    ∃ rule ∈ rewriter.rules, rewrite.labels = [rule.label] ∧ rule.guard.accepts command = true ∧
      ((∃ front gap, rewriter.rewrite? (splitAtOperator command).1 = some front ∧
          front.labels = rewrite.labels ∧ (∀ c ∈ gap, isSpace c = true) ∧
          rewrite.command = front.command ++ (gap ++ command.drop (operatorStart command i))) ↔
        rule.guard.accepts (splitAtOperator command).1 = true ∧
          ¬ (rule.action.dropsLast (splitAtOperator command).1 = true ∧
            (splitAtOperator command).1 ++ command.drop (operatorStart command i) = command)) ∧
      ∀ phrases, rule.guard = .phrase phrases .edge →
        rule.guard.accepts (splitAtOperator command).1 = true := by
  have htaken : isTaken command = false := by
    rw [rewrite?_of_leadOf_eq_nil hgate hn hlead] at h
    split at h
    · cases h
    · rename_i hnot
      simpa using hnot
  obtain ⟨rule, hrule, hrewrite, hlabels⟩ :=
    (htable.rewrite?_eq_some_iff hgate hn hlead htaken).1 h
  obtain ⟨haccepts, hchanges, hnew⟩ := rewrite?_eq_some_iff_apply.1 hrewrite
  have hproper := table_isProper rule (htable rule hrule)
  rw [isProper, Bool.and_eq_true] at hproper
  obtain ⟨part, white, tail, rfl, hsplit, htail, hseam, hlast⟩ :=
    exists_isSeam hi (Guard.exists_head_of_accepts hproper.1 haccepts)
  rw [hsplit] at hcut
  rw [htail, hsplit]
  dsimp only at hcut ⊢
  have hfree := hasOperator_eq_false_iff.1 hcut
  have hpartLead := leadOf_eq_nil_of_append hlead hlast
  have hpartTaken := not_isTaken_of_append hpartLead hlead htaken
  have hpartLine : '\n' ∉ part := fun hmem => hn (List.mem_append_left _ hmem)
  have hpart : ∀ {new}, rewriter.rewrite? part = some ⟨new, [rule.label]⟩ ↔
      rule.rewrite? part = some new :=
    htable.rewrite?_eq_some_label_iff hgate hpartLine hpartLead hpartTaken hrule
  have hdirect : part ++ tail = part ++ (white ++ tail) ↔ white = [] := by simp
  rw [hdirect]
  refine ⟨rule, hrule, hlabels, haccepts, ⟨?_, ?_⟩,
    fun _ hguard => accepts_part_of_edge (htable rule hrule) hseam hguard haccepts⟩
  · rintro ⟨⟨new, labels⟩, gap, hfront, hsame, hgap, hcommand⟩
    obtain rfl : labels = [rule.label] := hsame.trans hlabels
    obtain ⟨hpartAccepts, -, rfl⟩ := rewrite?_eq_some_iff_apply.1 (hpart.1 hfront)
    refine ⟨hpartAccepts, ?_⟩
    rintro ⟨hdrops, rfl⟩
    exact not_seam_of_dropsLast (table_isSeparable rule (htable rule hrule)) hseam hpartAccepts
      hdrops hgap (hnew.trans hcommand)
  · rintro ⟨hpartAccepts, hkeeps⟩
    obtain ⟨⟨new, htool⟩, gap, hgap, happly⟩ := exists_seam_apply (htable rule hrule) hseam hlast
      hsplit hfree hpartAccepts hchanges fun hdrops hwhite => hkeeps ⟨hdrops, hwhite⟩
    have hpartChanges : rule.action.apply part ≠ part := by
      rw [htool]
      exact ne_of_not_isTaken hpartLead hpartTaken new
    exact ⟨⟨rule.action.apply part, [rule.label]⟩, gap,
      hpart.2 (rewrite?_eq_some_iff_apply.2 ⟨hpartAccepts, hpartChanges, rfl⟩), hlabels.symm, hgap,
      hnew.symm.trans happly⟩

/-- White space in front of a redirection is taken for the gap in front of an argument. -/
theorem redirected_cat_rewritten :
    (ofRules table [] true).rewrite? "cat > notes.txt".toList =
        some ⟨"rtk read > notes.txt".toList, ["cat → rtk read"]⟩ ∧
      splitAtOperator "cat > notes.txt".toList = ("cat".toList, " > notes.txt".toList) ∧
      (ofRules table [] true).rewrite? "cat".toList = none := by
  decide +kernel

/-- A listing is rewritten in front of a pipe as it is by itself. -/
theorem rewritten_through_operator_listing :
    ∃ front gap, (ofRules table [] true).rewrite? "ls -la".toList = some front ∧
      (∀ c ∈ gap, isSpace c = true) ∧
      "rtk ls -la | wc -l".toList = front.command ++ (gap ++ "| wc -l".toList) := by
  have hsplit : splitAtOperator "ls -la | wc -l".toList = ("ls -la".toList, " | wc -l".toList) := by
    decide
  have hi : findOperator "ls -la | wc -l".toList = some 7 := by decide
  have htail : "ls -la | wc -l".toList.drop (operatorStart "ls -la | wc -l".toList 7) =
      "| wc -l".toList := by decide
  have hcut : hasOperator (splitAtOperator "ls -la | wc -l".toList).1 = false := by decide
  have hlead : leadOf "ls -la | wc -l".toList = [] := by decide +kernel
  have hrewrite : (ofRules table [] true).rewrite? "ls -la | wc -l".toList =
      some ⟨"rtk ls -la | wc -l".toList, ["ls"]⟩ := by decide +kernel
  obtain ⟨rule, hrule, hlabels, -, hiff, -⟩ := rewritten_through_operator
    (overTable_ofRules (fun _ hrule => hrule) [] true) rfl (by decide) hlead hi hcut hrewrite
  rw [htail, hsplit] at hiff
  have hmem : rule = renamed "ls" [["ls"]] "rtk ls" := by
    refine eq_of_label_eq ((overTable_ofRules (fun _ hrule => hrule) [] true) rule hrule)
      (by decide +kernel) ?_
    exact (List.cons.inj hlabels).1.symm
  subst hmem
  obtain ⟨front, gap, hfront, -, hgap, hcommand⟩ :=
    hiff.2 ⟨by decide +kernel, by decide +kernel⟩
  exact ⟨front, gap, hfront, hgap, hcommand⟩

end Rewriter

end CompactShell
