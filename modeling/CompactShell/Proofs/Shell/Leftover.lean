import CompactShell.Proofs.Shell.Cut

/-!
# The operator that a cut can leave

A line is cut in front of its first operator, so one would expect none in front of the cut. A cut
changes what the last character sees behind it, and that matters for one operator only: a `>` in
front of an ampersand copies a descriptor and is passed over, but at the end of a text it redirects.
A line is cut behind such a `>` if its ampersand is the first of a chain, and only then
(`operator_in_front_of_cut_iff`).
-/

namespace CompactShell.Shell

open Text

theorem operatorFrom_plainText {s : Scan} {text : List Char} (h : PlainText text) :
    operatorFrom s text = none := by
  induction text generalizing s with
  | nil => rfl
  | cons c text ih =>
    have hc : isOperator c text.head? = false := isOperator_of_isPlain (h c (List.mem_cons_self ..)) _
    have hrest := ih (s := s.next c) fun d hd => h d (List.mem_cons_of_mem _ hd)
    rw [operatorFrom_cons_eq_none, hc]
    exact ⟨fun hboth => Bool.noConfusion hboth.2, hrest⟩

/-- White space at the end of a text takes part in no operator. -/
theorem hasOperator_trimEnd (text : List Char) : hasOperator (trimEnd text) = hasOperator text := by
  obtain ⟨white, htext, hwhite⟩ := trimEnd_spec text
  have hnone : operatorFrom (Scan.start.after (trimEnd text)) white = none :=
    operatorFrom_plainText fun c hc => isPlain_of_isSpace (hwhite c hc)
  have hfind : findOperator (trimEnd text ++ white) = findOperator (trimEnd text) := by
    unfold findOperator
    rw [operatorFrom_append (isNeutral_head?_of_isSpace hwhite), hnone, Option.map_none,
      Option.or_none]
  rw [← htext] at hfind
  unfold hasOperator
  rw [hfind]

/-- A `>` at the end of a text is an operator if it is live, whatever it was in front of more. -/
theorem hasOperator_concat_redirection {text : List Char} (h : findOperator text = none) :
    hasOperator (text ++ ['>']) = (Scan.start.after text).isLive '>' := by
  have hneutral : IsNeutral ['>'].head? := ⟨by decide, by decide⟩
  have hoperator : isOperator '>' ([] : List Char).head? = true := by decide
  unfold hasOperator findOperator
  rw [operatorFrom_append_of_eq_none hneutral h, Option.isSome_map, operatorFrom, hoperator,
    Bool.and_true]
  cases (Scan.start.after text).isLive '>' with
  | false => rfl
  | true => rfl

/-- **When an operator is left in front of the cut.** The part in front of the first operator has an
operator itself exactly if the first operator is a chain right behind a live `>`. -/
theorem operator_in_front_of_cut_iff (command : List Char) :
    hasOperator (splitAtOperator command).1 = true ↔
      ∃ before rest, command = before ++ '>' :: '&' :: '&' :: rest ∧
        findOperator command = some (before.length + 1) ∧
        (Scan.start.after before).isLive '>' = true := by
  constructor
  · intro h
    cases hfind : findOperator command with
    | none =>
      rw [splitAtOperator_of_eq_none hfind, hasOperator, hfind] at h
      cases h
    | some i =>
      obtain ⟨front, lead, op, rest, hcut, hlength, -, hblank, hop⟩ := exists_isCut_operator hfind
      rw [hcut.split, hasOperator_trimEnd] at h
      -- only a cut between `>` and `&` can make an operator of what was none
      have hseam : front.getLast? = some '>' ∧ (lead ++ op :: rest).head? = some '&' := by
        by_contra hno
        have hnone : findOperator front = none := by
          refine operatorFrom_take (b := lead ++ op :: rest) ?_ hno
          rw [hcut.append]
          exact hcut.first
        rw [hasOperator, hnone] at h
        cases h
      obtain ⟨hlast, hhead⟩ := hseam
      obtain ⟨before, rfl⟩ := List.getLast?_eq_some_iff.1 hlast
      -- so nothing goes with the operator, which is the chain
      have hlead : lead = [] := by
        by_contra hne
        have hbad : isBlank '>' = true := hblank hne '>' hlast
        cases hbad
      subst hlead
      obtain rfl : op = '&' := Option.some.inj hhead
      have hnext : rest.head? = some '&' := by
        simpa [isOperator] using hop
      obtain ⟨rest, rfl⟩ := List.head?_eq_some_iff.1 hnext
      have happend := hcut.append
      rw [List.append_assoc] at happend
      have hbefore : findOperator before = none := by
        refine operatorFrom_take (b := '>' :: '&' :: '&' :: rest) ?_ ?_
        · intro j hj
          have hbound := hcut.first j (by rw [← happend]; exact hj)
          rw [List.length_append] at hbound
          omega
        · rintro ⟨-, hbad⟩
          cases hbad
      rw [hasOperator_concat_redirection hbefore] at h
      refine ⟨before, rest, happend.symm, ?_, h⟩
      rw [← hlength, List.append_nil, List.length_append, List.length_singleton]
  · rintro ⟨before, rest, hcommand, hfind, hlive⟩
    have hplace : command[before.length + 1]? = some '&' := by
      rw [hcommand, List.getElem?_append_right (by omega), Nat.add_sub_cancel_left]
      rfl
    have hstart : operatorStart command (before.length + 1) = before.length + 1 := by
      unfold operatorStart
      rw [hplace]
      rfl
    have htake : command.take (before.length + 1) = before ++ ['>'] := by
      rw [hcommand, List.take_length_add_append]
      rfl
    have hpart : (splitAtOperator command).1 = trimEnd (before ++ ['>']) := by
      unfold splitAtOperator
      rw [hfind]
      dsimp only
      rw [hstart, htake]
    rw [hpart, hasOperator_trimEnd, hasOperator_iff]
    exact ⟨before.length, before, '>', [], rfl, rfl, hlive, by decide⟩

/-- The cut falls between the `>` and the chain that its ampersand belongs to. -/
theorem chain_behind_redirection :
    splitAtOperator "grep -n x >&& y".toList = ("grep -n x >".toList, " && y".toList) ∧
      hasOperator (splitAtOperator "grep -n x >&& y".toList).1 = true := by
  decide

end CompactShell.Shell
