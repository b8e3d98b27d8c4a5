import CompactShell.Proofs.Rewriter.Lines

/-!
# Operators in a command

An operator matters by where it stands. In the body it closes the gate of a rewriter that was not
told to rewrite through operators. In the lead, which is kept as it is, it does not: substitutions
and separators may be part of an assignment's value.

The scan is at its start where the body begins, so the operators of a body are those of the whole
line from there on (`hasOperator_bodyOf_iff`), and the gate misses none of them.

Where the gate is open, everything from the first operator on is kept, and nothing in front of it
becomes an operator or opens a quote. What rules do to bodies has shown that already
(`Change.closed_and_tail`).
-/

namespace CompactShell.Rewriter

open Rule Shell Text

variable {rewriter : Rewriter}

/-! ## The gate -/

/-- The operators of a body are the ones of the line that stand behind its lead. -/
theorem hasOperator_bodyOf_iff {line : List Char} :
    hasOperator (bodyOf line) = true ↔
      ∃ i, (leadOf line).length ≤ i ∧ OperatorAt .start line i := by
  have hseam : ∀ i, OperatorAt .start line ((leadOf line).length + i) ↔
      OperatorAt .start (bodyOf line) i := by
    intro i
    have := operatorAt_append (s := .start) (a := leadOf line) (b := bodyOf line) (i := i)
    rwa [leadOf_append_bodyOf, after_leadOf] at this
  rw [hasOperator_iff]
  constructor
  · rintro ⟨i, hi⟩
    exact ⟨(leadOf line).length + i, Nat.le_add_right .., (hseam i).2 hi⟩
  · rintro ⟨i, hle, hi⟩
    obtain ⟨k, rfl⟩ := Nat.exists_eq_add_of_le hle
    exact ⟨k, (hseam k).1 hi⟩

/-- **A closed gate lets no body through.** -/
theorem rewriteLine?_of_hasOperator (hgate : rewriter.throughOperators = false) {line : List Char}
    (h : hasOperator (bodyOf line) = true) : rewriter.rewriteLine? line = none := by
  rw [rewriteLine?_eq, hgate, h]
  exact ite_self none

/-- A body without operators goes through any gate. -/
theorem rewriteLine?_of_not_hasOperator {line : List Char}
    (h : hasOperator (bodyOf line) = false) :
    rewriter.rewriteLine? line =
      { rewriter with throughOperators := true }.rewriteLine? line := by
  rw [rewriteLine?_eq, rewriteLine?_eq, h, Bool.and_false, Bool.and_false]
  rfl

/-- **The gate looks at the body, and at all of it.** An operator anywhere behind the assignments
keeps the command from being rewritten; operators in the assignments alone make no difference. -/
theorem gate_covers_body (hgate : rewriter.throughOperators = false) {command : List Char}
    (hn : '\n' ∉ command) :
    ((∃ i, (leadOf command).length ≤ i ∧ OperatorAt .start command i) →
        rewriter.rewrite? command = none) ∧
      ((∀ i, OperatorAt .start command i → i < (leadOf command).length) →
        rewriter.rewrite? command =
          { rewriter with throughOperators := true }.rewrite? command) := by
  rw [rewrite?_of_not_mem hn, rewrite?_of_not_mem hn]
  constructor
  · intro h
    rw [rewriteLine?_of_hasOperator hgate (hasOperator_bodyOf_iff.2 h)]
    rfl
  · intro h
    have hfree : hasOperator (bodyOf command) = false := by
      rw [Bool.eq_false_iff, ne_eq, hasOperator_bodyOf_iff]
      rintro ⟨i, hle, hi⟩
      exact absurd (h i hi) (Nat.not_lt.2 hle)
    rw [rewriteLine?_of_not_hasOperator hfree]

/-- A pipe behind an assignment keeps the command from being rewritten, a substitution in it does
not. -/
theorem gate_covers_body_assigned :
    builtIn.rewrite? "A=$(date) git log | wc".toList = none ∧
      builtIn.rewrite? "A=$(date) git log".toList =
        { builtIn with throughOperators := true }.rewrite? "A=$(date) git log".toList := by
  constructor
  · refine (gate_covers_body rfl (by decide)).1 ?_
    rw [← hasOperator_bodyOf_iff]
    decide +kernel
  · refine (gate_covers_body rfl (by decide)).2 ?_
    intro i hi
    by_contra hle
    have hbody : hasOperator (bodyOf "A=$(date) git log".toList) = true :=
      hasOperator_bodyOf_iff.2 ⟨i, Nat.not_lt.1 hle, hi⟩
    exact absurd hbody (by decide +kernel)

/-- A substitution in an assignment is an operator of the command, and the command is rewritten. -/
theorem operator_in_lead_rewritten :
    '\n' ∉ "A=$(date) git status".toList ∧
      findOperator "A=$(date) git status".toList = some 2 ∧
      builtIn.rewrite? "A=$(date) git status".toList =
        some ⟨"A=$(date) rtk git status".toList, ["git"]⟩ := by
  decide +kernel

/-! ## The tail -/

/-- **Nothing comes alive, and the tail is kept.** For a body that closes its quotes and has no `>`
that runs into a chain, the new body closes its quotes too, has an operator exactly if the old one
has one, and is the same from its first operator on. -/
theorem rewritten_keeps_tail (htable : rewriter.OverTable) {command : List Char}
    (hn : '\n' ∉ command) {rewrite : Rewrite} (h : rewriter.rewrite? command = some rewrite)
    (hclosed : isClosed (bodyOf command) = true) (hcopy : holds ">&&" (bodyOf command) = false) :
    ∃ new label, rewriter.rewriteBody? (bodyOf command) = some (new, label) ∧
      rewrite = ⟨leadOf command ++ new, [label]⟩ ∧ isClosed new = true ∧
      (findOperator new = none ↔ findOperator (bodyOf command) = none) ∧
      ∀ i j, findOperator (bodyOf command) = some i → findOperator new = some j →
        new.drop j = (bodyOf command).drop i := by
  rw [rewrite?_of_not_mem hn] at h
  obtain ⟨⟨line, label⟩, hline, rfl⟩ := Option.map_eq_some_iff.1 h
  obtain ⟨new, hnew, rfl⟩ := exists_body_of_rewriteLine? hline
  obtain ⟨hclosedNew, htail⟩ := (htable.change hnew).closed_and_tail hclosed hcopy
  refine ⟨new, label, hnew, rfl, hclosedNew, ?_, ?_⟩
  · rw [← operatorTail?_eq_none_iff, htail, operatorTail?_eq_none_iff]
  · intro i j hi hj
    rw [operatorTail?, operatorTail?, hi, hj] at htail
    exact Option.some.inj htail

/-- A quoted pipe stays quoted, and the redirect and the pipe behind it stay where they are. -/
theorem rewritten_keeps_tail_grep :
    ∃ new label,
      (ofRules Rule.table [] true).rewriteBody?
          (bodyOf "LC_ALL=C grep -rn 'a|b' src 2> log | sort".toList) = some (new, label) ∧
        (⟨"LC_ALL=C rtk grep 'a|b' src -n 2> log | sort".toList, ["grep/rg"]⟩ : Rewrite) =
          ⟨leadOf "LC_ALL=C grep -rn 'a|b' src 2> log | sort".toList ++ new, [label]⟩ ∧
        isClosed new = true ∧
        (findOperator new = none ↔
          findOperator (bodyOf "LC_ALL=C grep -rn 'a|b' src 2> log | sort".toList) = none) ∧
        ∀ i j, findOperator (bodyOf "LC_ALL=C grep -rn 'a|b' src 2> log | sort".toList) = some i →
          findOperator new = some j →
          new.drop j = (bodyOf "LC_ALL=C grep -rn 'a|b' src 2> log | sort".toList).drop i :=
  rewritten_keeps_tail (overTable_ofRules (fun _ hrule => hrule) [] true) (by decide)
    (by decide +kernel) (by decide +kernel) (by decide +kernel)

end CompactShell.Rewriter
